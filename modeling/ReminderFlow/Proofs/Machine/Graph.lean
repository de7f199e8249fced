import Mathlib.Data.List.Nodup
import Mathlib.Logic.Relation
import Mathlib.Tactic.Common
import ReminderFlow.Machine.Graph

namespace ReminderFlow.Graph

variable {leads : String → String → Bool} {names : List String}

/-- One name leads to another of the names. -/
def Edge (leads : String → String → Bool) (names : List String) (a b : String) : Prop :=
  leads a b = true ∧ b ∈ names

/-- There is a way to a name from one of the first names. -/
def Reached (leads : String → String → Bool) (names first : List String) (n : String) : Prop :=
  ∃ a ∈ first, a ∈ names ∧ Relation.ReflTransGen (Edge leads names) a n

theorem mem_grow {chosen : List String} {n : String} :
    n ∈ grow leads names chosen ↔
      n ∈ names ∧ (n ∈ chosen ∨ ∃ m ∈ chosen, leads m n = true) := by
  simp [grow]

/-- The chosen names stand in the order of all names. -/
def Chosen (names chosen : List String) : Prop := chosen = names.filter fun n => chosen.contains n

theorem chosen_filter (p : String → Bool) : Chosen names (names.filter p) := by
  apply List.filter_congr
  intro n hn
  simp [hn]

theorem chosen_grow (chosen : List String) : Chosen names (grow leads names chosen) :=
  chosen_filter _

theorem Chosen.sublist_grow {chosen : List String} (h : Chosen names chosen) :
    List.Sublist chosen (grow leads names chosen) := by
  have hmono : List.Sublist (names.filter fun n => chosen.contains n)
      (grow leads names chosen) := by
    apply List.monotone_filter_right
    intro n hn
    rw [hn, Bool.true_or]
  rwa [← show chosen = names.filter fun n => chosen.contains n from h] at hmono

/-- A round that adds nothing leaves all as it is. -/
theorem Chosen.grow_eq {chosen : List String} (h : Chosen names chosen)
    (hlength : (grow leads names chosen).length ≤ chosen.length) :
    grow leads names chosen = chosen :=
  (h.sublist_grow.eq_of_length_le hlength).symm

/-- With a round for each name that is missing, the last round adds nothing. -/
theorem grow_closeIn {rounds : Nat} {chosen : List String} (h : Chosen names chosen)
    (hrounds : names.length ≤ rounds + chosen.length) :
    grow leads names (closeIn leads names rounds chosen) = closeIn leads names rounds chosen := by
  induction rounds generalizing chosen with
  | zero =>
    have hgrow : (grow leads names chosen).length ≤ names.length := List.length_filter_le _ _
    exact h.grow_eq (by omega)
  | succ rounds ih =>
    rw [closeIn]
    split_ifs with hstop
    · exact h.grow_eq hstop
    · apply ih (chosen_grow chosen)
      omega

theorem subset_closeIn {rounds : Nat} {chosen : List String} (h : Chosen names chosen) :
    chosen ⊆ closeIn leads names rounds chosen := by
  induction rounds generalizing chosen with
  | zero => exact fun n hn => hn
  | succ rounds ih =>
    rw [closeIn]
    split_ifs
    · exact fun n hn => hn
    · exact List.Subset.trans h.sublist_grow.subset (ih (chosen_grow chosen))

/-- Rounds only add what can be reached. -/
theorem reached_of_mem_closeIn {first : List String} {rounds : Nat} {chosen : List String}
    (hchosen : ∀ n ∈ chosen, Reached leads names first n) {n : String}
    (hn : n ∈ closeIn leads names rounds chosen) : Reached leads names first n := by
  induction rounds generalizing chosen with
  | zero => exact hchosen n hn
  | succ rounds ih =>
    rw [closeIn] at hn
    split_ifs at hn
    · exact hchosen n hn
    · apply ih _ hn
      intro m hm
      obtain ⟨hmem, hm⟩ := mem_grow.1 hm
      rcases hm with hm | ⟨k, hk, hleads⟩
      · exact hchosen m hm
      · obtain ⟨a, ha, hin, hway⟩ := hchosen k hk
        exact ⟨a, ha, hin, hway.tail ⟨hleads, hmem⟩⟩

theorem mem_closure_iff {first : List String} {n : String} :
    n ∈ closure leads names first ↔ Reached leads names first n := by
  have hstart : Chosen names (names.filter fun n => first.contains n) := chosen_filter _
  constructor
  · intro hn
    apply reached_of_mem_closeIn _ hn
    intro m hm
    obtain ⟨hmem, hfirst⟩ := List.mem_filter.1 hm
    exact ⟨m, by simpa using hfirst, hmem, .refl⟩
  · rintro ⟨a, ha, hin, hway⟩
    have hclosed : grow leads names (closure leads names first) = closure leads names first :=
      grow_closeIn hstart (by omega)
    induction hway with
    | refl =>
      apply subset_closeIn hstart
      exact List.mem_filter.2 ⟨hin, by simpa using ha⟩
    | tail _ hedge ih =>
      rw [← hclosed, mem_grow]
      exact ⟨hedge.2, .inr ⟨_, ih, hedge.1⟩⟩

theorem mem_outside_iff {first : List String} {n : String} :
    n ∈ outside leads names first ↔ n ∈ names ∧ ¬Reached leads names first n := by
  rw [outside, List.mem_mergeSort, List.mem_filter, ← mem_closure_iff]
  simp

theorem pairwise_outside (first : List String) :
    (outside leads names first).Pairwise (· ≤ ·) := by
  have htrans (a b c : String) :
      decide (a ≤ b) = true → decide (b ≤ c) = true → decide (a ≤ c) = true := by
    simpa using String.le_trans
  have htotal (a b : String) : (decide (a ≤ b) || decide (b ≤ a)) = true := by
    simpa using String.le_total a b
  have hsorted := List.pairwise_mergeSort htrans htotal
    (names.filter fun n => !(closure leads names first).contains n)
  exact hsorted.imp of_decide_eq_true

theorem nodup_outside (h : names.Nodup) (first : List String) :
    (outside leads names first).Nodup :=
  (List.mergeSort_perm _ _).nodup_iff.2 (h.filter _)

end ReminderFlow.Graph
