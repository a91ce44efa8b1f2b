import Lancaster.Base.Text
import Mathlib.Data.Finset.Image
import Mathlib.Data.List.Nodup

/-!
# The multicast addresses of the feeds

`startIfNeeded` takes a name once, and asks for an address. `getMcastAddrFor` looks for one that is
not assigned yet, and counts the third octet of the base group up while it looks. No address is ever
given back.

Only the discovery loop starts publishers, so that the calls follow one another.
-/

namespace Lancaster

/-- The four octets of a group, as `To4` leaves them. -/
structure McastGroup where
  first : UInt8
  second : UInt8
  third : UInt8
  fourth : UInt8

namespace McastGroup

/-- `String`. -/
def text (group : McastGroup) : List UInt8 :=
  Text.decimal group.first.toNat ++ Text.ascii "." ++ Text.decimal group.second.toNat ++ Text.ascii "." ++
    Text.decimal group.third.toNat ++ Text.ascii "." ++ Text.decimal group.fourth.toNat

/-- The group whose third octet has been counted up `i` times. -/
def shifted (group : McastGroup) (i : Nat) : McastGroup :=
  { group with third := group.third + UInt8.ofNat i }

theorem shifted_zero (group : McastGroup) : group.shifted 0 = group := by
  simp [shifted]

theorem shifted_shifted (group : McastGroup) (i j : Nat) :
    (group.shifted i).shifted j = group.shifted (i + j) := by
  simp [shifted, UInt8.add_assoc]

/-- The octet comes round. -/
theorem shifted_round (group : McastGroup) (i : Nat) :
    group.shifted (i + 256) = group.shifted i := by
  have round : UInt8.ofNat (i + 256) = UInt8.ofNat i := by
    apply UInt8.toNat_inj.mp
    simp
  rw [shifted, shifted, round]

/-- Groups that differ in the third octet have different texts. -/
theorem text_shifted_inj {group : McastGroup} {i j : Nat} (hi : i < 256) (hj : j < 256)
    (same : (group.shifted i).text = (group.shifted j).text) : i = j := by
  simp only [text, shifted, List.append_assoc, List.append_cancel_left_eq] at same
  have digits := congrArg Text.valueOf (List.append_cancel_right same)
  rw [Text.valueOf_decimal, Text.valueOf_decimal, UInt8.toNat_add, UInt8.toNat_add,
    UInt8.toNat_ofNat', UInt8.toNat_ofNat'] at digits
  have := group.third.toNat_lt
  omega

end McastGroup

/-- `baseMCastGroup` and `addrsAssigned`. -/
structure McastPicker where
  baseMCastGroup : McastGroup
  addrsAssigned : Finset (List UInt8)

namespace McastPicker

/-- The loop, with the number of times that it is still to run. -/
def look (picker : McastPicker) : Nat → Option (List UInt8) × McastPicker
  | 0 => (none, picker)
  | tries + 1 =>
    if picker.baseMCastGroup.text ∉ picker.addrsAssigned then (some picker.baseMCastGroup.text, picker)
    else look { picker with baseMCastGroup := picker.baseMCastGroup.shifted 1 } tries

def getMcastAddrFor (picker : McastPicker) : Except String (List UInt8) × McastPicker :=
  match picker.look 256 with
  | (some addr, picker) => (.ok addr, { picker with addrsAssigned := insert addr picker.addrsAssigned })
  | (none, picker) => (.error "error: exhausted multicast addresses", picker)

/-- The loop counts past the addresses that are assigned. -/
theorem look_skips (picker : McastPicker) (n tries : Nat)
    (used : ∀ i < n, (picker.baseMCastGroup.shifted i).text ∈ picker.addrsAssigned) :
    picker.look (n + tries) =
      look { picker with baseMCastGroup := picker.baseMCastGroup.shifted n } tries := by
  induction n generalizing picker with
  | zero => rw [Nat.zero_add, McastGroup.shifted_zero]
  | succ n ih =>
    have here : picker.baseMCastGroup.text ∈ picker.addrsAssigned := by
      have first := used 0 (Nat.succ_pos n)
      rwa [McastGroup.shifted_zero] at first
    have rest := ih { picker with baseMCastGroup := picker.baseMCastGroup.shifted 1 } (by
      intro i less
      rw [McastGroup.shifted_shifted, Nat.add_comm 1 i]
      exact used (i + 1) (Nat.succ_lt_succ less))
    rw [McastGroup.shifted_shifted, Nat.add_comm 1 n] at rest
    rw [Nat.add_right_comm, look, if_neg (not_not.mpr here)]
    exact rest

/-- The first `k` addresses are assigned, and the base group is the last of them. -/
structure Assigned (base : McastGroup) (k : Nat) (picker : McastPicker) : Prop where
  group : picker.baseMCastGroup = base.shifted (k - 1)
  addrs : picker.addrsAssigned = (Finset.range k).image fun i => (base.shifted i).text
  le : k ≤ 256

namespace Assigned

variable {base : McastGroup} {k : Nat} {picker : McastPicker}

theorem initial (base : McastGroup) : Assigned base 0 ⟨base, ∅⟩ :=
  ⟨(base.shifted_zero).symm, by simp, Nat.zero_le _⟩

/-- The next address is free. -/
theorem free (h : Assigned base k picker) (room : k < 256) :
    (base.shifted k).text ∉ picker.addrsAssigned := by
  rw [h.addrs, Finset.mem_image]
  rintro ⟨i, here, same⟩
  have less := Finset.mem_range.mp here
  have := McastGroup.text_shifted_inj (by omega) room same
  omega

/-- As long as there is one, the next address is assigned. -/
theorem next (h : Assigned base k picker) (room : k < 256) :
    ∃ picker', picker.getMcastAddrFor = (.ok (base.shifted k).text, picker') ∧
      Assigned base (k + 1) picker' := by
  have found : picker.look 256 = (some (base.shifted k).text, { picker with
      baseMCastGroup := base.shifted k }) := by
    by_cases zero : k = 0
    · subst zero
      have group : picker.baseMCastGroup = base.shifted 0 := h.group
      rw [← group, look, if_pos (by rw [group]; exact h.free room)]
    · have used : ∀ i < 1, (picker.baseMCastGroup.shifted i).text ∈ picker.addrsAssigned := by
        intro i less
        rw [h.group, McastGroup.shifted_shifted, h.addrs]
        exact Finset.mem_image_of_mem _ (Finset.mem_range.mpr (by omega))
      have turned : picker.baseMCastGroup.shifted 1 = base.shifted k := by
        rw [h.group, McastGroup.shifted_shifted]
        congr 1
        omega
      rw [picker.look_skips 1 255 used, turned, look, if_pos (h.free room)]
  refine ⟨⟨base.shifted k, insert (base.shifted k).text picker.addrsAssigned⟩,
    by rw [getMcastAddrFor, found], rfl, ?_, room⟩
  rw [h.addrs, Finset.range_add_one, Finset.image_insert]

/-- After 256 addresses none is left, and the base group has come round. -/
theorem exhausted (h : Assigned base 256 picker) :
    picker.getMcastAddrFor = (.error "error: exhausted multicast addresses", picker) := by
  have used : ∀ i < 256, (picker.baseMCastGroup.shifted i).text ∈ picker.addrsAssigned := by
    intro i less
    rw [h.group, McastGroup.shifted_shifted, h.addrs]
    by_cases start : i = 0
    · subst start
      exact Finset.mem_image_of_mem _ (Finset.mem_range.mpr (by omega))
    · have round : base.shifted (256 - 1 + i) = base.shifted (i - 1) := by
        rw [← base.shifted_round (i - 1)]
        congr 1
        omega
      rw [round]
      exact Finset.mem_image_of_mem _ (Finset.mem_range.mpr (by omega))
  have back : picker.baseMCastGroup.shifted 256 = picker.baseMCastGroup := by
    have round := picker.baseMCastGroup.shifted_round 0
    rwa [McastGroup.shifted_zero, Nat.zero_add] at round
  rw [getMcastAddrFor, picker.look_skips 256 0 used, back]
  rfl

end Assigned

end McastPicker

/-! ## The feeds that are started -/

section Feeds

variable {Name : Type} [DecidableEq Name]

/-- The map of the publishers, which holds each name that was ever looked at, and the addresses.
`launched` is a history variable: the publishers that were made, with their addresses. -/
structure Feeds (Name : Type) where
  publishers : Finset Name
  picker : McastPicker
  launched : List (Name × List UInt8)

namespace Feeds

def initial (base : McastGroup) : Feeds Name := ⟨∅, ⟨base, ∅⟩, []⟩

def startIfNeeded (feeds : Feeds Name) (name : Name) : Feeds Name :=
  if name ∈ feeds.publishers then feeds
  else
    match feeds.picker.getMcastAddrFor with
    | (.error _, picker) => { feeds with publishers := insert name feeds.publishers, picker := picker }
    | (.ok addr, picker) =>
      { publishers := insert name feeds.publishers
        picker := picker
        launched := feeds.launched ++ [(name, addr)] }

/-- The calls of the discovery loop, for the names it finds. -/
def run (base : McastGroup) (names : List Name) : Feeds Name :=
  names.foldl startIfNeeded (initial base)

/-- The first names have a publisher each, and these have the first addresses. -/
structure Kept (base : McastGroup) (names : List Name) (feeds : Feeds Name) : Prop where
  known : ∀ name, name ∈ feeds.publishers ↔ name ∈ names
  started : feeds.launched.map Prod.fst = names.eraseDups.take 256
  addrs : feeds.launched.map Prod.snd =
    (List.range feeds.launched.length).map fun i => (base.shifted i).text
  assigned : feeds.picker.Assigned base feeds.launched.length

namespace Kept

variable {base : McastGroup} {names : List Name} {feeds : Feeds Name}

theorem start (base : McastGroup) : Kept base ([] : List Name) (initial base) :=
  ⟨fun name => by simp [initial], rfl, rfl, .initial base⟩

theorem length (h : Kept base names feeds) :
    feeds.launched.length = min 256 names.eraseDups.length := by
  have size := congrArg List.length h.started
  rwa [List.length_map, List.length_take] at size

/-- One more name. -/
theorem step (h : Kept base names feeds) (name : Name) :
    Kept base (names ++ [name]) (feeds.startIfNeeded name) := by
  have known (name' : Name) : name' ∈ insert name feeds.publishers ↔ name' ∈ names ++ [name] := by
    rw [Finset.mem_insert, h.known, List.mem_append, List.mem_singleton, or_comm]
  by_cases old : name ∈ names
  · have same : (names ++ [name]).eraseDups = names.eraseDups := by
      simp [List.eraseDups_append, List.removeAll, old]
    have again : insert name feeds.publishers = feeds.publishers :=
      Finset.insert_eq_of_mem ((h.known name).mpr old)
    rw [startIfNeeded, if_pos ((h.known name).mpr old)]
    rw [again] at known
    exact ⟨known, by rw [same]; exact h.started, h.addrs, h.assigned⟩
  · have longer : (names ++ [name]).eraseDups = names.eraseDups ++ [name] := by
      simp [List.eraseDups_append, List.removeAll, List.eraseDups_cons, old]
    have size := h.length
    rw [startIfNeeded, if_neg fun here => old ((h.known name).mp here)]
    by_cases room : feeds.launched.length < 256
    · obtain ⟨picker, given, assigned⟩ := h.assigned.next room
      rw [given]
      dsimp only
      refine ⟨known, ?_, ?_, ?_⟩
      · rw [List.map_append, h.started, longer, List.take_of_length_le (by omega),
          List.take_of_length_le (by rw [List.length_append, List.length_singleton]; omega)]
        rfl
      · rw [List.map_append, h.addrs, List.length_append, List.length_singleton, List.range_succ,
          List.map_append]
        rfl
      · rw [List.length_append]
        exact assigned
    · have full : feeds.launched.length = 256 := by omega
      have assigned := h.assigned
      rw [full] at assigned
      rw [assigned.exhausted]
      refine ⟨known, h.started.trans ?_, h.addrs, h.assigned⟩
      rw [longer, List.take_append_of_le_length (by omega)]

end Kept

theorem run_kept (base : McastGroup) (names : List Name) : Kept base names (run base names) := by
  induction names using List.reverseRecOn with
  | nil => exact .start base
  | append_singleton names name ih =>
    rw [run, List.foldl_append]
    exact ih.step name

/-- Of the names that are found, in whatever order and however often, the first 256 different ones
have a publisher each; the `i`-th has the base group with its third octet counted up `i` times, and
no two publishers have the same address. -/
theorem addresses_apart (base : McastGroup) (names : List Name) :
    (run base names).launched.map Prod.fst = names.eraseDups.take 256 ∧
    (run base names).launched.map Prod.snd =
      (List.range (run base names).launched.length).map (fun i => (base.shifted i).text) ∧
    ((run base names).launched.map Prod.snd).Nodup := by
  have kept := run_kept base names
  refine ⟨kept.started, kept.addrs, ?_⟩
  rw [kept.addrs]
  refine List.Nodup.map_on ?_ List.nodup_range
  intro i hi j hj same
  have le := kept.assigned.le
  exact McastGroup.text_shifted_inj (by have := List.mem_range.mp hi; omega)
    (by have := List.mem_range.mp hj; omega) same

end Feeds

end Feeds

end Lancaster
