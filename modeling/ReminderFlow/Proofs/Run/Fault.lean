import ReminderFlow.Proofs.Machine.WellFormed
import ReminderFlow.Run.Chain

namespace ReminderFlow

namespace Failure

/-- A failure that has an error code of its own. -/
def Foreseen : Failure → Prop
  | crash _ => False
  | _ => True

/-- A failure that an accepted machine may end with: one that has a code, the crash of a wait for
too long, or what was raised by a value that cannot be shown or by what an executor gave. -/
def Allowed (f : Failure) : Prop :=
  f.Foreseen ∨ f = crash .numberTooLarge ∨ ∃ fault, f = crash (.outside fault)

theorem allowed_outside (fault : Fault) : (crash (.outside fault)).Allowed := .inr (.inr ⟨fault, rfl⟩)

theorem showing_of_ok {make : String → Failure} {v : Value} {shown : String}
    (h : v.describe = .ok shown) : showing make v = make shown := by
  rw [showing, h]

theorem showing_of_error {make : String → Failure} {v : Value} {fault : Fault}
    (h : v.describe = .error fault) : showing make v = crash (.outside fault) := by
  rw [showing, h]

/-- The failure that shows a value is the one that was meant, unless the value cannot be shown. -/
theorem showing_cases (make : String → Failure) (v : Value) :
    (∃ shown, v.describe = .ok shown ∧ showing make v = make shown) ∨
      ∃ fault, v.describe = .error fault ∧ showing make v = crash (.outside fault) := by
  cases h : v.describe with
  | ok shown => exact .inl ⟨shown, rfl, showing_of_ok h⟩
  | error fault => exact .inr ⟨fault, rfl, showing_of_error h⟩

end Failure

theorem Document.get_error {doc : Document} {path : Value} (h : path.IsPath)
    {e : DocumentError} (he : doc.get (Datum.ofValue path) = .error e) : ∃ p, e = .notFound p := by
  obtain ⟨tokens, htokens⟩ := h
  have hparse : Path.parseDatum (Datum.ofValue path) = .ok tokens := htokens
  simp only [Document.get, hparse, Except.mapError, bind, Except.bind, Document.getTokens] at he
  split at he
  · cases he
  · cases he
    exact ⟨_, rfl⟩

theorem Document.set_error {doc : Document} {path : Value} (h : path.IsPath) {new : Datum}
    {e : DocumentError} (he : doc.set (Datum.ofValue path) new = .error e) :
    (∃ p, e = .notFound p) ∨ ∃ i, e = .incompatible i := by
  obtain ⟨tokens, htokens⟩ := h
  have hparse : Path.parseDatum (Datum.ofValue path) = .ok tokens := htokens
  simp only [Document.set, hparse, Except.mapError, bind, Except.bind, Document.setTokens] at he
  split_ifs at he
  · cases he
    exact .inl ⟨_, rfl⟩
  · split at he
    · cases he
      exact .inr ⟨_, rfl⟩
    · split at he
      · cases he
      · cases he
        exact .inl ⟨_, rfl⟩

namespace Comparison

theorem ordered_ne_error {wanted : Number → Number → Bool} {actual operand : Value}
    (h : operand.IsFiniteNumber) {e : ConditionError} :
    ordered wanted actual operand ≠ .error e := by
  unfold ordered
  cases actual.number? with
  | none => simp
  | some a => cases operand <;> simp_all [Value.IsFiniteNumber, Value.quantity?, Value.number?]

theorem matches?_ne_error {op : Comparison} {actual operand : Value} (h : op.Fits operand)
    {e : ConditionError} : op.matches? actual operand ≠ .error e := by
  cases op with
  | numericLessThan => exact ordered_ne_error h
  | numericGreaterThan => exact ordered_ne_error h
  | _ => simp [matches?]

theorem absent_error {op : Comparison} {path : String} {operand : Value} {e : ConditionError}
    (he : op.absent path operand = .error e) : e = .notFound path := by
  unfold absent at he
  split at he <;> cases he
  rfl

end Comparison

namespace Condition

theorem compareIn_error {doc : Document} {op : Comparison} {variable_ operand : Value}
    (hfits : op.Fits operand) (hpath : variable_.IsPath) {e : ConditionError}
    (he : compareIn doc op variable_ operand = .error e) : ∃ p, e = .notFound p := by
  obtain ⟨tokens, htokens⟩ := hpath
  simp only [compareIn, htokens] at he
  split at he
  · exact absurd he (Comparison.matches?_ne_error hfits)
  · exact ⟨_, Comparison.absent_error he⟩

mutual

/-- A well-formed condition has a truth value, unless it asks for what is not there. -/
theorem holds_error {doc : Document} : (c : Condition) → c.WellFormed → {e : ConditionError} →
    c.holds doc = .error e → ∃ p, e = .notFound p
  | compare op variable_ operand, h, e, he => by
    obtain ⟨hfits, hpath⟩ := wellFormed_compare_iff.1 h
    rw [holds] at he
    exact compareIn_error hfits hpath he
  | all conditions, h, e, he => by
    rw [holds] at he
    exact holdsAll_error conditions (wellFormed_all_iff.1 h).2 he
  | any conditions, h, e, he => by
    rw [holds] at he
    exact holdsAny_error conditions (wellFormed_any_iff.1 h).2 he
  | not condition, h, e, he => by
    rw [holds] at he
    cases hinner : holds doc condition with
    | ok b =>
      rw [hinner] at he
      cases he
    | error e' =>
      rw [hinner] at he
      cases he
      exact holds_error condition (wellFormed_not_iff.1 h) hinner

theorem holdsAll_error {doc : Document} : (conditions : List Condition) →
    (∀ c ∈ conditions, c.WellFormed) → {e : ConditionError} →
    holdsAll doc conditions = .error e → ∃ p, e = .notFound p
  | [], _, e, he => by simp [holdsAll] at he
  | c :: rest, h, e, he => by
    obtain ⟨hc, hrest⟩ := List.forall_mem_cons.1 h
    rw [holdsAll] at he
    split at he
    · exact holdsAll_error rest hrest he
    · exact holds_error c hc he

theorem holdsAny_error {doc : Document} : (conditions : List Condition) →
    (∀ c ∈ conditions, c.WellFormed) → {e : ConditionError} →
    holdsAny doc conditions = .error e → ∃ p, e = .notFound p
  | [], _, e, he => by simp [holdsAny] at he
  | c :: rest, h, e, he => by
    obtain ⟨hc, hrest⟩ := List.forall_mem_cons.1 h
    rw [holdsAny] at he
    split at he
    · exact holdsAny_error rest hrest he
    · exact holds_error c hc he

end

end Condition

namespace Chain

theorem choose_error {doc : Document} {default : Value} {rules : List Rule}
    (h : ∀ r ∈ rules, r.condition.WellFormed) {f : Failure}
    (hf : choose doc default rules = .error f) : ∃ p, f = .notFound p := by
  induction rules with
  | nil => cases hf
  | cons r rest ih =>
    obtain ⟨hr, hrest⟩ := List.forall_mem_cons.1 h
    rw [choose] at hf
    split at hf
    · rename_i e he
      obtain ⟨p, rfl⟩ := Condition.holds_error r.condition hr he
      cases hf
      exact ⟨p, rfl⟩
    · cases hf
    · exact ih hrest hf

theorem mem_of_choose {doc : Document} {default target : Value} {rules : List Rule}
    (h : choose doc default rules = .ok target) : target = default ∨ ∃ r ∈ rules, r.next = target := by
  induction rules with
  | nil =>
    cases h
    exact .inl rfl
  | cons r rest ih =>
    rw [choose] at h
    split at h
    · cases h
    · cases h
      exact .inr ⟨r, by simp, rfl⟩
    · rcases ih h with hd | ⟨r', hr', hnext⟩
      · exact .inl hd
      · exact .inr ⟨r', List.mem_cons_of_mem r hr', hnext⟩

theorem duration?_tooLarge {v : Value} (h : v.duration? = .error .tooLarge) :
    ∃ n, v = .int n ∧ fitsDouble n = false := by
  cases v with
  | int n =>
    rw [Value.duration?] at h
    split_ifs at h with hfits hneg
    · exact ⟨n, rfl, by simpa using hfits⟩
    · cases h
  | float x =>
    rw [Value.duration?] at h
    split_ifs at h
    cases h
  | _ => cases h

/-- The path of a wait leads to a whole number that is no double. -/
def LongWait (doc : Document) (secondsPath seconds : Value) : Prop :=
  seconds = .null ∧ ∃ n, doc.get (Datum.ofValue secondsPath) = .ok (.int n) ∧ fitsDouble n = false

/-- The path of a wait leads to a value that is no duration. -/
structure AimlessWait (doc : Document) (secondsPath seconds v : Value) : Prop where
  unfixed : seconds = .null
  found : doc.get (Datum.ofValue secondsPath) = .ok v
  invalid : v.duration? = .error .invalid

theorem waitTime_of_get {secondsPath v : Value} {doc : Document}
    (h : doc.get (Datum.ofValue secondsPath) = .ok v) :
    waitTime secondsPath .null doc = v.duration?.mapError fun
      | .invalid => .showing .duration v
      | .tooLarge => .crash .numberTooLarge := by
  simp only [waitTime, Value.isNull, if_true, h]
  rfl

theorem waitTime_error {secondsPath seconds next : Value} {doc : Document} {f : Failure}
    (h : (State.wait secondsPath seconds next).WellFormed)
    (hf : waitTime secondsPath seconds doc = .error f) :
    (∃ p, f = .notFound p) ∨
      (∃ v, AimlessWait doc secondsPath seconds v ∧ f = .showing .duration v) ∨
      (f = .crash .numberTooLarge ∧ LongWait doc secondsPath seconds) := by
  rcases h with ⟨-, rfl, hpath⟩ | ⟨-, hne, hduration⟩
  · cases hget : doc.get (Datum.ofValue secondsPath) with
    | error e =>
      obtain ⟨p, rfl⟩ := Document.get_error hpath hget
      simp only [waitTime, Value.isNull, if_true, hget, Except.mapError, bind, Except.bind] at hf
      cases hf
      exact .inl ⟨p, rfl⟩
    | ok v =>
      rw [waitTime_of_get hget] at hf
      cases hv : v.duration? with
      | ok t =>
        rw [hv] at hf
        cases hf
      | error fault =>
        rw [hv] at hf
        cases hf
        cases fault with
        | invalid => exact .inr (.inl ⟨v, ⟨rfl, hget, hv⟩, rfl⟩)
        | tooLarge =>
          obtain ⟨n, rfl, hfits⟩ := duration?_tooLarge hv
          exact .inr (.inr ⟨rfl, rfl, n, hget, hfits⟩)
  · obtain ⟨t, ht⟩ := Value.duration?_eq_ok_iff.2 hduration
    have hnull : seconds.isNull = false := Value.isNull_eq_false_iff.2 hne
    simp [waitTime, hnull, ht, Except.mapError, bind, Except.bind] at hf

theorem waitTime_of_longWait {secondsPath seconds : Value} {doc : Document}
    (h : LongWait doc secondsPath seconds) :
    waitTime secondsPath seconds doc = .error (.crash .numberTooLarge) := by
  obtain ⟨rfl, n, hget, hfits⟩ := h
  have hduration : (Value.int n).duration? = .error .tooLarge := by
    simp only [Value.duration?, hfits, Bool.not_false, if_true]
  rw [waitTime_of_get hget, hduration]
  rfl

theorem waitTime_of_aimlessWait {secondsPath seconds v : Value} {doc : Document}
    (h : AimlessWait doc secondsPath seconds v) :
    waitTime secondsPath seconds doc = .error (.showing .duration v) := by
  rw [h.unfixed, waitTime_of_get h.found, h.invalid]
  rfl

theorem taskCall_error {knows : String → Bool} {resource inputPath outputPath : Value}
    {doc : Document} (hpath : inputPath.IsPath) {f : Failure}
    (hf : taskCall knows resource inputPath outputPath doc = .error f) :
    (∃ p, f = .notFound p) ∨
      (∀ id, resource = .str id → knows id = false) ∧ f = .showing .unknownExecutor resource := by
  unfold taskCall at hf
  split at hf
  · rename_i id
    split_ifs at hf with hknows
    · cases hget : doc.get (Datum.ofValue inputPath) with
      | error e =>
        obtain ⟨p, rfl⟩ := Document.get_error hpath hget
        rw [hget] at hf
        cases hf
        exact .inl ⟨p, rfl⟩
      | ok v =>
        rw [hget] at hf
        cases hf
    · cases hf
      refine .inr ⟨fun other hother => ?_, rfl⟩
      cases hother
      simpa using hknows
  · rename_i hnone
    cases hf
    exact .inr ⟨fun id hid => absurd hid (hnone id), rfl⟩

theorem outputPath_of_taskCall {knows : String → Bool} {resource inputPath outputPath : Value}
    {doc : Document} {call : Call}
    (h : taskCall knows resource inputPath outputPath doc = .ok call) :
    call.outputPath = outputPath := by
  unfold taskCall at h
  split at h
  · split_ifs at h
    obtain ⟨v, -, rfl⟩ := map_eq_ok_iff.1 h
    rfl
  · cases h

/-- A task whose output cannot be stored fails for want of a member, or by what is wrong with the
output. -/
theorem store_error {stop : Stop} {call : Call} {output : Datum} (h : call.outputPath.IsPath)
    {f : Failure} (hf : store stop call output = .error f) :
    (∃ p, f = .notFound p) ∨ ∃ e,
      stop.document.set (Datum.ofValue call.outputPath) output = .error (.incompatible e) ∧
        f = refused call.executor e.fault := by
  cases hset : stop.document.set (Datum.ofValue call.outputPath) output with
  | ok doc => simp [store, hset, Except.mapError] at hf
  | error e =>
    rw [store, hset] at hf
    cases hf
    rcases Document.set_error h hset with ⟨p, rfl⟩ | ⟨e, rfl⟩
    · exact .inl ⟨p, rfl⟩
    · exact .inr ⟨e, rfl, rfl⟩

/-- A task fails by what is wrong with its output, unless that is unforeseen or cannot be told. -/
theorem refused_cases (executor : String) (fault : Fault) :
    (∃ cause, refused executor fault = .task executor cause) ∨
      ∃ other, refused executor fault = .crash (.outside other) := by
  unfold refused
  split
  · split
    · exact .inl ⟨_, rfl⟩
    · exact .inr ⟨_, rfl⟩
  · exact .inr ⟨_, rfl⟩

/-- A task fails by what its executor raised, unless that cannot be told. -/
theorem failed_cases (executor : String) (fault : Fault) :
    (∃ cause, fault.cause = .ok cause ∧ failed executor fault = .task executor cause) ∨
      ∃ other, fault.cause = .error other ∧ failed executor fault = .crash (.outside other) := by
  unfold failed
  split
  · next cause h => exact .inl ⟨cause, h, rfl⟩
  · next other h => exact .inr ⟨other, h, rfl⟩

theorem store_of_set_error {stop : Stop} {call : Call} {output : Datum} {e : Incompatible}
    (h : stop.document.set (Datum.ofValue call.outputPath) output = .error (.incompatible e)) :
    store stop call output = .error (refused call.executor e.fault) := by
  rw [store, h]
  rfl

end Chain

end ReminderFlow
