import Mathlib.Data.List.Infix
import ReminderFlow.Run.Chain

namespace ReminderFlow.Chain

def Event.branch : Event → String
  | entered branch _ _ => branch
  | left branch => branch
  | called branch _ _ => branch
  | refused branch _ _ => branch

/-- What the events tell of one chain, in their order. -/
def on (branch : String) (events : List Event) : List Event :=
  events.filter fun e => e.branch = branch

/-- All events tell of a chain or of branches below it. -/
def Within (branch : String) (events : List Event) : Prop :=
  ∀ e ∈ events, branch.toList <+: e.branch.toList

theorem on_append (branch : String) (before after : List Event) :
    on branch (before ++ after) = on branch before ++ on branch after := by
  simp [on]

theorem within_nil (branch : String) : Within branch [] := by
  intro e he
  simp at he

theorem Within.append {branch : String} {before after : List Event} (hb : Within branch before)
    (ha : Within branch after) : Within branch (before ++ after) := by
  intro e he
  rcases List.mem_append.mp he with he | he
  · exact hb e he
  · exact ha e he

theorem within_singleton {branch : String} {e : Event} (h : e.branch = branch) :
    Within branch [e] := by
  intro d hd
  rw [List.mem_singleton.mp hd, h]

theorem within_leaving (branch : String) : Within branch (leaving branch) := by
  unfold leaving
  split_ifs
  · exact within_nil branch
  · exact within_singleton rfl

theorem within_refusal (branch executor : String) (reply : Except Fault Datum) :
    Within branch (refusal branch executor reply) := by
  obtain h | ⟨text, h⟩ := refusal_cases branch executor reply
  · rw [h]
    exact within_nil branch
  · rw [h]
    exact within_singleton rfl

theorem Within.widen {outer inner : String} {events : List Event}
    (hp : outer.toList <+: inner.toList) (h : Within inner events) : Within outer events :=
  fun e he => hp.trans (h e he)

theorem prefix_branchName (parent state : String) (i : Nat) :
    parent.toList <+: (branchName parent state i).toList := by
  unfold branchName
  split_ifs with h
  · simp [h]
  · refine ⟨'/' :: (state ++ "[" ++ toString i ++ "]").toList, ?_⟩
    simp

/-- The digits of the place end at the bracket, so one name tells the place. -/
theorem place_unique {parent state : String} {i j : Nat} {s : List Char}
    (hi : (branchName parent state i).toList <+: s)
    (hj : (branchName parent state j).toList <+: s) : i = j := by
  have digits (n : Nat) : ']' ∉ Nat.toDigits 10 n := by
    intro h
    have hd := Nat.isDigit_of_mem_toDigits (by decide) (by decide) h
    revert hd
    decide
  obtain ⟨u, rfl⟩ := hi
  obtain ⟨v, hv⟩ := hj
  have hcut : Nat.toDigits 10 j ++ ']' :: v = Nat.toDigits 10 i ++ ']' :: u := by
    simpa [branchName, Nat.toList_repr] using hv
  have hsame : Nat.toDigits 10 j = Nat.toDigits 10 i := by
    have cut (n : Nat) (r : List Char) :
        (Nat.toDigits 10 n ++ ']' :: r).takeWhile (· ≠ ']') = Nat.toDigits 10 n := by
      rw [List.takeWhile_append_of_pos]
      · simp
      · intro c hc
        simpa using fun h : c = ']' => digits n (h ▸ hc)
    rw [← cut j v, hcut, cut]
  have hn := congrArg (fun ds => Nat.ofDigitChars 10 ds 0) hsame
  simpa [Nat.ofDigitChars_ten_toDigits] using hn.symm

/-- Events of one branch say nothing of what goes on below another branch of the same fork. -/
theorem on_eq_nil_of_within {parent state : String} {i j : Nat} (hij : i ≠ j) {branch : String}
    {events : List Event} (hb : (branchName parent state i).toList <+: branch.toList)
    (h : Within (branchName parent state j) events) : on branch events = [] := by
  rw [on, List.filter_eq_nil_iff]
  intro e he heq
  have hname : e.branch = branch := by simpa using heq
  exact hij (place_unique hb (hname ▸ h e he))

variable {knows : String → Bool}

theorem within_move? {branch : String} {move : Move} {c next : Chain} {events : List Event}
    (h : move? knows branch move c = some (next, events)) : Within branch events := by
  unfold move? at h
  split at h
  case h_2 =>
    split at h <;> rw [← (Prod.mk.inj (Option.some.inj h)).2]
    · exact within_singleton rfl
    · exact within_nil branch
  case h_5 r stop call =>
    rw [← (Prod.mk.inj (Option.some.inj h)).2]
    exact within_refusal branch call.executor r
  case h_6 stop branches =>
    obtain ⟨results, -, hnext⟩ := Option.map_eq_some_iff.1 h
    split at hnext <;> rw [← (Prod.mk.inj hnext).2] <;> exact within_nil branch
  case h_7 => simp at h
  all_goals rw [← (Prod.mk.inj (Option.some.inj h)).2]
  case h_4 => exact within_singleton rfl
  all_goals exact within_nil branch

theorem within_step {branch : String} {move : Move} {c next : Chain} {events : List Event}
    (h : step knows branch move c = some (next, events)) : Within branch events := by
  obtain ⟨⟨after, seen⟩, hmove, heq⟩ := Option.map_eq_some_iff.1 h
  rw [← (Prod.mk.inj heq).2]
  split_ifs
  · exact (within_move? hmove).append (within_leaving branch)
  · exact within_move? hmove

/-- What a move inside a tree shows is told under the names of the tree. -/
theorem within_stepAt {move : Move} {address : List Nat} {branch : String} {c next : Chain}
    {events : List Event} (h : stepAt knows move address branch c = some (next, events)) :
    Within branch events := by
  induction address generalizing branch c next with
  | nil => exact within_step h
  | cons i rest ih =>
    cases c with
    | forked stop branches =>
      simp only [stepAt, Option.bind_eq_bind, Option.bind_eq_some_iff] at h
      obtain ⟨child, -, ⟨after, seen⟩, hafter, hnext⟩ := h
      obtain ⟨-, rfl⟩ := Prod.mk.inj (Option.some.inj hnext)
      exact (ih hafter).widen (prefix_branchName branch stop.state i)
    | _ => simp [stepAt] at h

end ReminderFlow.Chain
