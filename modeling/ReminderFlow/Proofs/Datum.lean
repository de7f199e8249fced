import Mathlib.Tactic.Common
import ReminderFlow.Datum
import ReminderFlow.Proofs.Machine.WellFormed

namespace ReminderFlow

/-- A stack that nothing is too deep for. -/
def Room.ample : Room := ⟨fun _ => true, fun _ => true⟩

theorem Datum.words_eq_error_iff {shown : Option Datum} {fault : Fault} :
    words shown = .error fault ↔ ∃ d, shown = some d ∧ d.describe = .error fault := by
  cases shown with
  | none => simp [words]
  | some d => simp [words]

namespace Incompatible

/-- Nothing was raised while the datum was read, and what the message shows can be shown. -/
def Tellable : Incompatible → Prop
  | nonFinite _ => True
  | key k => ∃ shown, k.describe = .ok shown
  | kind _ => True
  | raised _ => False

/-- What can be told is told by a fault of type. -/
theorem Tellable.fault {e : Incompatible} (h : e.Tellable) :
    ∃ message, e.fault = .ofText "TypeError" message := by
  cases e with
  | nonFinite x => exact ⟨_, rfl⟩
  | kind typeName => exact ⟨_, rfl⟩
  | raised fault => cases h
  | key k =>
    obtain ⟨shown, hshown⟩ := h
    refine ⟨wording shown (.key k), ?_⟩
    rw [Incompatible.fault, shown?, Datum.words, hshown]
    · rfl
    · simp

/-- Else that is raised which was raised before. -/
theorem fault_of_not_tellable {e : Incompatible} (h : ¬e.Tellable) :
    e = .raised e.fault ∨ ∃ k, e = .key k ∧ k.describe = .error e.fault := by
  cases e with
  | nonFinite x => exact absurd trivial h
  | kind typeName => exact absurd trivial h
  | raised fault => exact .inl rfl
  | key k =>
    cases hk : k.describe with
    | ok shown => exact absurd ⟨shown, hk⟩ h
    | error fault =>
      refine .inr ⟨k, rfl, ?_⟩
      rw [Incompatible.fault, shown?, Datum.words, hk]
      · rfl
      · simp

/-- A key that is a whole number of too many digits cannot be shown. -/
theorem fault_key_of_long {n : Int} (h : tenTo Text.wholeLimit ≤ n.natAbs) :
    (key (.int n)).fault = .tooManyDigits := by
  rw [Incompatible.fault, shown?, Datum.words, Datum.describe, if_neg (Nat.not_lt.2 h)]
  · rfl
  · simp

end Incompatible

namespace Value

/-- A whole number of more digits than can be written is in the value. -/
inductive HoldsLong : Value → Prop
  | here {n : Int} (long : tenTo Text.wholeLimit ≤ n.natAbs) : HoldsLong (int n)
  | item {items : List Value} {v : Value} (mem : v ∈ items) (inner : HoldsLong v) :
      HoldsLong (arr items)
  | member {members : List (String × Value)} {key : String} {v : Value}
      (mem : (key, v) ∈ members) (inner : HoldsLong v) : HoldsLong (obj members)

theorem describe_int_error {n : Int} {fault : Fault} (h : (int n).describe = .error fault) :
    fault = .tooManyDigits ∧ (int n).HoldsLong := by
  rw [describe, Datum.ofValue, Datum.describe] at h
  split_ifs at h with hshort
  cases h
  exact ⟨rfl, .here (Nat.le_of_not_lt hshort)⟩

mutual

theorem describe_error {fault : Fault} : (v : Value) → (h : v.describe = .error fault) →
    fault = .tooManyDigits ∧ v.HoldsLong
  | int _ => describe_int_error
  | arr items => by
    intro h
    rw [describe, Datum.ofValue, Datum.describe] at h
    obtain ⟨hfault, v, hv, hlong⟩ := describeItems_error items (map_eq_error_iff.1 h)
    exact ⟨hfault, .item hv hlong⟩
  | obj members => by
    intro h
    rw [describe, Datum.ofValue, Datum.describe] at h
    obtain ⟨hfault, key, v, hv, hlong⟩ := describeEntries_error members (map_eq_error_iff.1 h)
    exact ⟨hfault, .member hv hlong⟩
  | null => by simp [describe, Datum.ofValue, Datum.describe]
  | bool _ => by simp [describe, Datum.ofValue, Datum.describe]
  | float _ => by simp [describe, Datum.ofValue, Datum.describe]
  | str _ => by simp [describe, Datum.ofValue, Datum.describe]

theorem describeItems_error {fault : Fault} : (items : List Value) →
    (h : Datum.describeItems (Datum.ofItems items) = .error fault) →
    fault = .tooManyDigits ∧ ∃ v ∈ items, v.HoldsLong
  | [] => nofun
  | v :: rest => by
    intro h
    rw [Datum.ofItems, Datum.describeItems] at h
    rcases bind_eq_error_iff.1 h with hv | ⟨_, -, hmore⟩
    · obtain ⟨hfault, hlong⟩ := describe_error v hv
      exact ⟨hfault, v, List.mem_cons_self, hlong⟩
    · rcases bind_eq_error_iff.1 hmore with hrest | ⟨_, -, hpure⟩
      · obtain ⟨hfault, w, hw, hlong⟩ := describeItems_error rest hrest
        exact ⟨hfault, w, List.mem_cons_of_mem _ hw, hlong⟩
      · cases hpure

theorem describeEntries_error {fault : Fault} : (members : List (String × Value)) →
    (h : Datum.describeEntries (Datum.ofMembers members) = .error fault) →
    fault = .tooManyDigits ∧ ∃ key v, (key, v) ∈ members ∧ v.HoldsLong
  | [] => nofun
  | (key, v) :: rest => by
    intro h
    rw [Datum.ofMembers, Datum.describeEntries] at h
    rcases bind_eq_error_iff.1 h with hkey | ⟨_, -, hmore⟩
    · cases hkey
    rcases bind_eq_error_iff.1 hmore with hv | ⟨_, -, hmore⟩
    · obtain ⟨hfault, hlong⟩ := describe_error v hv
      exact ⟨hfault, key, v, List.mem_cons_self, hlong⟩
    · rcases bind_eq_error_iff.1 hmore with hrest | ⟨_, -, hpure⟩
      · obtain ⟨hfault, other, w, hw, hlong⟩ := describeEntries_error rest hrest
        exact ⟨hfault, other, w, List.mem_cons_of_mem _ hw, hlong⟩
      · cases hpure

end

theorem describeItems_ok {items : List Value} {texts : List String}
    (h : Datum.describeItems (Datum.ofItems items) = .ok texts) {v : Value} (hv : v ∈ items) :
    ∃ text, v.describe = .ok text := by
  induction items generalizing texts with
  | nil => cases hv
  | cons first rest ih =>
    rw [Datum.ofItems, Datum.describeItems] at h
    obtain ⟨text, hfirst, h⟩ := bind_eq_ok_iff.1 h
    obtain ⟨more, hrest, -⟩ := bind_eq_ok_iff.1 h
    rcases List.mem_cons.1 hv with rfl | hv
    · exact ⟨text, hfirst⟩
    · exact ih hrest hv

theorem describeEntries_ok {members : List (String × Value)} {texts : List String}
    (h : Datum.describeEntries (Datum.ofMembers members) = .ok texts) {key : String} {v : Value}
    (hv : (key, v) ∈ members) : ∃ text, v.describe = .ok text := by
  induction members generalizing texts with
  | nil => cases hv
  | cons first rest ih =>
    rw [Datum.ofMembers, Datum.describeEntries] at h
    obtain ⟨_, -, h⟩ := bind_eq_ok_iff.1 h
    obtain ⟨text, hfirst, h⟩ := bind_eq_ok_iff.1 h
    obtain ⟨more, hrest, -⟩ := bind_eq_ok_iff.1 h
    rcases List.mem_cons.1 hv with rfl | hv
    · exact ⟨text, hfirst⟩
    · exact ih hrest hv

theorem HoldsLong.not_described {v : Value} (h : v.HoldsLong) (text : String) :
    v.describe ≠ .ok text := by
  induction h generalizing text with
  | here long =>
    rw [describe, Datum.ofValue, Datum.describe, if_neg (Nat.not_lt.2 long)]
    simp
  | item mem inner ih =>
    intro h
    obtain ⟨texts, hitems, -⟩ := map_eq_ok_iff.1 h
    obtain ⟨text, hv⟩ := describeItems_ok hitems mem
    exact ih text hv
  | member mem inner ih =>
    intro h
    obtain ⟨texts, hentries, -⟩ := map_eq_ok_iff.1 h
    obtain ⟨text, hv⟩ := describeEntries_ok hentries mem
    exact ih text hv

/-- A value can be shown unless it holds a whole number that is too long to be written. -/
theorem describe_eq_error_iff {v : Value} {fault : Fault} :
    v.describe = .error fault ↔ fault = .tooManyDigits ∧ v.HoldsLong := by
  refine ⟨describe_error v, ?_⟩
  rintro ⟨rfl, hlong⟩
  cases h : v.describe with
  | ok text => exact absurd h (hlong.not_described text)
  | error fault => rw [(describe_error v h).1]

end Value

end ReminderFlow
