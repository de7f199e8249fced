import ReminderFlow.Machine.Reminder
import ReminderFlow.Outcome
import ReminderFlow.Proofs.Datum
import ReminderFlow.Proofs.Document
import ReminderFlow.Proofs.Run.Crash
import ReminderFlow.Proofs.Run.Ensures

namespace ReminderFlow

open Chain (Calls Replies)

theorem Path.parse_root : parse "$" = .ok [] := by
  have hchars : "$".toList = ['$'] := by rfl
  rw [parse, hchars]
  simp only [segments]
  rfl

namespace Machine

def waitPath : Datum := .str "$.waitSeconds"

def preferencePath : Datum := .str "$.preference"

/-- What comes of a call: a document, or the cause of a failure. -/
abbrev Given := Except String Document

def notGiven (fault : Fault) : Except Fault Given :=
  match fault.family with
  | .type => fault.text.map fun text => .error s!"Executor returned invalid output: {text}"
  | _ => .error fault

/-- What a reply comes to, unless telling a failure or reading an output raises a fault. -/
def given : Except Fault Datum → Except Fault Given
  | .error fault => fault.cause.map .error
  | .ok output =>
    match Document.ofDatum output with
    | .ok doc => .ok (.ok doc)
    | .error e => notGiven e.fault

/-- The outputs of both executors; what goes wrong with the first one comes first. -/
def together : Except Fault Given → Except Fault Given → Except Fault Given
  | .ok (.ok first), .ok (.ok second) => .ok (.ok ⟨.arr [first.value, second.value]⟩)
  | .ok (.ok _), second => second
  | first, _ => first

def taskOutcome : Given → Outcome
  | .ok doc => .succeeded doc
  | .error cause => { status := .failed, error := .str "States.TaskFailed", cause := .str cause }

def absentOutcome (path : String) : Outcome where
  status := .failed
  error := .str "States.PathNotFound"
  cause := .str (DocumentError.notFoundMessage path)

def durationOutcome (shown : String) : Outcome where
  status := .failed
  error := .str "States.InvalidDuration"
  cause := .str s!"Wait duration must be a non-negative number, got {shown}"

def noMatchOutcome : Outcome where
  status := .failed
  error := .str "NoMatches"
  cause := .str "No Matches"

/-- The preferences that are for one executor. -/
def soloExecutors : List (String × String) := [("email", emailExecutor), ("sms", smsExecutor)]

/-- What becomes of a document: the calls that are made for it, and the outcome or the fault that
ends it. First it has to say how long to wait, and then what is preferred; only after that executors
are called. -/
inductive Delivered (replies : Replies) (doc : Document) : Calls → Except Fault Outcome → Prop
  | noWait (absent : doc.get waitPath = .error (.notFound "$.waitSeconds")) :
      Delivered replies doc 0 (.ok (absentOutcome "$.waitSeconds"))
  | badWait {v : Value} {shown : String} (wait : doc.get waitPath = .ok v) (bad : ¬v.IsDuration)
      (tells : v.describe = .ok shown) : Delivered replies doc 0 (.ok (durationOutcome shown))
  | longWait {v : Value} (wait : doc.get waitPath = .ok v) (bad : ¬v.IsDuration)
      (long : v.HoldsLong) : Delivered replies doc 0 (.error .tooManyDigits)
  | noPreference {v : Value} (wait : doc.get waitPath = .ok v) (good : v.IsDuration)
      (absent : doc.get preferencePath = .error (.notFound "$.preference")) :
      Delivered replies doc 0 (.ok (absentOutcome "$.preference"))
  | solo {v : Value} {preference executor : String} {reply : Except Fault Datum}
      (wait : doc.get waitPath = .ok v) (good : v.IsDuration)
      (preferred : doc.get preferencePath = .ok (.str preference))
      (which : (preference, executor) ∈ soloExecutors)
      (replied : replies executor doc.value reply) :
      Delivered replies doc {(executor, doc.value)} ((given reply).map taskOutcome)
  | both {v : Value} {first second : Except Fault Datum} (wait : doc.get waitPath = .ok v)
      (good : v.IsDuration) (preferred : doc.get preferencePath = .ok (.str "both"))
      (email : replies emailExecutor doc.value first)
      (sms : replies smsExecutor doc.value second) :
      Delivered replies doc {(emailExecutor, doc.value), (smsExecutor, doc.value)}
        ((together (given first) (given second)).map taskOutcome)
  | noMatch {v preference : Value} (wait : doc.get waitPath = .ok v) (good : v.IsDuration)
      (preferred : doc.get preferencePath = .ok preference)
      (other : ∀ s ∈ ["email", "sms", "both"], preference ≠ .str s) :
      Delivered replies doc 0 (.ok noMatchOutcome)

/-- The outcome of an execution that ends so, if it can be told. -/
def outcomeOf? (deadline : Instant) : Except Fault Outcome → Option Outcome
  | .ok o => some o
  | .error fault => Outcome.ofFault? deadline fault

end Machine

namespace Chain

open Machine

variable {knows : String → Bool} {replies : Replies}

/-- The failure of an executor, or the document that it gives. -/
def resultOf (executor : String) : Except Fault Given → Except Failure Document
  | .ok (.ok doc) => .ok doc
  | .ok (.error cause) => .error (.task executor cause)
  | .error fault => .error (.crash (.outside fault))

def proceed (m : Machine) (next : Value) : Except Failure Document → Chain
  | .ok doc => follow m next doc
  | .error f => fail f

theorem resultOf_notGiven (executor : String) (fault : Fault) :
    resultOf executor (notGiven fault) = .error (refused executor fault) := by
  rw [notGiven, refused]
  cases fault.family with
  | type => cases fault.text <;> rfl
  | _ => rfl

theorem take_root (stop : Stop) (executor : String) (input : Value)
    (reply : Except Fault Datum) :
    take stop ⟨executor, input, .str "$"⟩ reply =
      proceed stop.machine stop.next (resultOf executor (given reply)) := by
  cases reply with
  | error fault =>
    rw [take, failed, given]
    cases fault.cause <;> rfl
  | ok output =>
    have hset : stop.document.set (Datum.ofValue (.str "$")) output =
        (Document.ofDatum output).mapError DocumentError.incompatible := by
      simp only [Document.set, Datum.ofValue, Path.parseDatum, Path.parse_root,
        Document.setTokens, Document.ofDatum]
      cases output.toValue <;> rfl
    rw [take, store, hset, given]
    cases Document.ofDatum output with
    | ok doc => rfl
    | error e =>
      dsimp only
      rw [resultOf_notGiven]
      rfl

/-- A task with a registered executor makes its one call and goes on by the reply. -/
theorem ensures_task {n : Nat} {Q : Post} {m : Machine} {name executor : String} {next : Value}
    {doc : Document} (hs : m.state? name = some (taskOn executor next))
    (hknown : knows executor = true) (replied : ∃ reply, replies executor doc.value reply)
    (proceeds : ∀ reply, replies executor doc.value reply →
      Ensures knows replies n (Q.after {(executor, doc.value)})
        (proceed m next (resultOf executor (given reply)))) :
    Ensures knows replies (n + 3) Q (.ready m name doc) := by
  have hget : doc.get (Datum.ofValue (.str "$")) = .ok doc.value := Document.get_eq Path.parse_root doc
  have henter : enterState knows m name doc (taskOn executor next) =
      working ⟨m, name, next, doc⟩ ⟨executor, doc.value, .str "$"⟩ false := by
    simp only [taskOn, enterState, taskCall, hknown, hget]
    rfl
  refine .ready hs ?_
  rw [henter]
  refine .queued (.called replied fun reply hreply => ?_)
  rw [take_root]
  exact proceeds reply hreply

theorem ensures_finish {Q : Post} {doc : Document} (h : Q 0 (.ok doc)) :
    Ensures knows replies 2 Q (follow reminder (.str "Pass") doc) := by
  have hpass : reminder.state? "Pass" = some (.pass (.str "Succeed")) := by rfl
  have hsucceed : reminder.state? "Succeed" = some .succeed := by rfl
  exact .ready hpass (.ready hsucceed (.ended h))

/-- A chain that hands over the document of an executor is done, and fails if there is none. -/
theorem ensures_proceed {Q : Post} {r : Except Failure Document} (h : Q 0 r) :
    Ensures knows replies 2 Q (proceed reminder (.str "Pass") r) := by
  cases r with
  | ok doc => exact ensures_finish h
  | error f => exact .ended h

theorem ofResult?_resultOf (deadline : Instant) (executor : String) (x : Except Fault Given) :
    Outcome.ofResult? deadline (resultOf executor x) = outcomeOf? deadline (x.map taskOutcome) := by
  cases x with
  | ok x => cases x <;> rfl
  | error fault => rfl

theorem eq_of_resultOf {executor : String} {x : Except Fault Given} {doc : Document}
    (h : resultOf executor x = .ok doc) : x = .ok (.ok doc) := by
  cases x with
  | ok x =>
    cases x <;> cases h
    rfl
  | error fault => cases h

/-- Where the first executor has failed it does not matter what the second one does. -/
theorem together_of_error {executor : String} {first : Except Fault Given} {f : Failure}
    (h : resultOf executor first = .error f) (second : Except Fault Given) :
    together first second = first := by
  cases first with
  | ok x =>
    cases x with
    | ok doc => cases h
    | error cause => rfl
  | error fault => rfl

theorem together_of_ok (doc : Document) {executor : String} {second : Except Fault Given}
    {f : Failure} (h : resultOf executor second = .error f) :
    together (.ok (.ok doc)) second = second := by
  cases second with
  | ok x =>
    cases x with
    | ok other => cases h
    | error cause => rfl
  | error fault => rfl

theorem joins_pair {stop : Stop} {first second : Except Fault Given} {one other : String}
    {next : Chain} (h : Joins stop [resultOf one first, resultOf other second] next) :
    ∃ executor, next =
      proceed stop.machine stop.next (resultOf executor (together first second)) := by
  cases h with
  | @together docs all =>
    rcases docs with _ | ⟨a, _ | ⟨b, _ | _⟩⟩ <;> simp at all
    obtain ⟨hfirst, hsecond⟩ := all
    rw [eq_of_resultOf hfirst, eq_of_resultOf hsecond]
    exact ⟨one, rfl⟩
  | @failed i f here before =>
    match i with
    | 0 =>
      have hfirst : resultOf one first = .error f := Option.some.inj here
      refine ⟨one, ?_⟩
      rw [together_of_error hfirst, hfirst]
      rfl
    | 1 =>
      have hsecond : resultOf other second = .error f := Option.some.inj here
      obtain ⟨doc, hdoc⟩ := before 0 Nat.zero_lt_one
      refine ⟨other, ?_⟩
      rw [eq_of_resultOf (Option.some.inj hdoc), together_of_ok doc hsecond, hsecond]
      rfl
    | i + 2 => cases here

/-- What is to hold of a call of one executor with the whole document. -/
def SoloPost (replies : Replies) (executor : String) (doc : Document) : Post := fun calls r =>
  ∃ reply, replies executor doc.value reply ∧ calls = {(executor, doc.value)} ∧
    r = resultOf executor (given reply)

theorem ensures_singleTask {name executor : String} {doc : Document} (hknown : knows executor = true)
    (replied : ∃ reply, replies executor doc.value reply) :
    Ensures knows replies 4 (SoloPost replies executor doc)
      (.created (singleTask name executor) doc) := by
  have hs : (singleTask name executor).state? name = some (taskOn executor .null) := by
    simp [singleTask, Machine.state?, Machine.states]
  refine .created (ensures_task hs hknown replied fun reply hreply => ?_)
  have hend : proceed (singleTask name executor) .null (resultOf executor (given reply)) =
      .ended (resultOf executor (given reply)) := by
    cases resultOf executor (given reply) <;> rfl
  rw [hend]
  exact .ended ⟨reply, hreply, add_zero _, rfl⟩

section

variable (hemail : knows emailExecutor = true) (hsms : knows smsExecutor = true)
  (replied : ∀ executor input, knows executor = true → ∃ reply, replies executor input reply)
include replied

theorem ensures_solo {doc : Document} {Q : Post} {name executor : String}
    (hknown : knows executor = true)
    (hs : reminder.state? name = some (taskOn executor (.str "Pass")))
    (h : ∀ reply, replies executor doc.value reply →
      Q {(executor, doc.value)} (resultOf executor (given reply))) :
    Ensures knows replies 5 Q (.ready reminder name doc) := by
  refine ensures_task hs hknown (replied executor doc.value hknown) fun reply hreply => ?_
  refine ensures_proceed ?_
  rw [Post.after, add_zero]
  exact h reply hreply

include hemail hsms

theorem ensures_both {doc : Document} {Q : Post}
    (h : ∀ first second executor, replies emailExecutor doc.value first →
      replies smsExecutor doc.value second →
      Q {(emailExecutor, doc.value), (smsExecutor, doc.value)}
        (resultOf executor (together (given first) (given second)))) :
    Ensures knows replies 12 Q (.ready reminder "Send Both" doc) := by
  have hs : reminder.state? "Send Both" = some (.parallel
      [singleTask "First send email" emailExecutor, singleTask "Second send SMS" smsExecutor] []
      (.str "Pass")) := by rfl
  refine .ready hs (.forked [⟨4, SoloPost replies emailExecutor doc⟩,
    ⟨4, SoloPost replies smsExecutor doc⟩] rfl ?_ ?_)
  · intro i c aim hc haim
    match i with
    | 0 =>
      cases hc
      cases haim
      exact ensures_singleTask hemail (replied _ _ hemail)
    | 1 =>
      cases hc
      cases haim
      exact ensures_singleTask hsms (replied _ _ hsms)
    | i + 2 => cases hc
  · rintro outs hmeet next hjoins
    obtain ⟨a, b, rfl⟩ := List.length_eq_two.1 hmeet.length
    obtain ⟨first, hfirst, hcalls, hresult⟩ := hmeet.each 0 _ a rfl rfl
    obtain ⟨second, hsecond, hcalls', hresult'⟩ := hmeet.each 1 _ b rfl rfl
    simp only [List.map_cons, List.map_nil, hresult, hresult'] at hjoins
    obtain ⟨executor, rfl⟩ := joins_pair hjoins
    have hsum : ([a, b].map Out.calls).sum =
        {(emailExecutor, doc.value), (smsExecutor, doc.value)} := by
      simp only [List.map_cons, List.map_nil, List.sum_cons, List.sum_nil, hcalls, hcalls']
      rfl
    rw [hsum]
    refine ensures_proceed ?_
    rw [Post.after, add_zero]
    exact h first second executor hfirst hsecond

end

/-- A look-up at a path that can be read finds a value, or nothing. -/
theorem get_cases {text : String} (h : (Path.parse text).toOption.isSome = true) (doc : Document) :
    doc.get (.str text) = .error (.notFound text) ∨ ∃ v, doc.get (.str text) = .ok v := by
  rw [Document.get_eq (eq_ok_get h), Document.getTokens]
  cases doc.value.getAt _ with
  | none => exact .inl rfl
  | some v => exact .inr ⟨v, rfl⟩

theorem isSome_preferencePath : (Path.parse "$.preference").toOption.isSome = true := by
  decide +kernel

theorem holds_preferring (doc : Document) (preference target : String) :
    (preferring preference target).condition.holds doc =
      match doc.get preferencePath with
      | .ok v => .ok (decide (v.str? = some preference))
      | .error _ => .error (.notFound "$.preference") := by
  obtain ⟨tokens, hparse⟩ : ∃ tokens, Path.parse "$.preference" = .ok tokens :=
    ⟨_, eq_ok_get isSome_preferencePath⟩
  have hvalue : Path.parseValue (.str "$.preference") = Path.parse "$.preference" := rfl
  rw [preferencePath, Document.get_eq hparse, preferring, Condition.holds, Condition.compareIn,
    hvalue, hparse, Document.getTokens]
  dsimp only
  cases doc.value.getAt tokens with
  | none => rfl
  | some v => cases v <;> simp [Comparison.matches?, Value.str?]

def targetOf (preference : Value) : String :=
  if preference.str? = some "email" then "Send Email"
  else if preference.str? = some "sms" then "Send SMS"
  else if preference.str? = some "both" then "Send Both"
  else noMatches

theorem choose_reminder (doc : Document) :
    choose doc (.str noMatches) [preferring "email" "Send Email", preferring "sms" "Send SMS",
      preferring "both" "Send Both"] =
      match doc.get preferencePath with
      | .ok v => .ok (.str (targetOf v))
      | .error _ => .error (.notFound "$.preference") := by
  simp only [choose, holds_preferring]
  cases doc.get preferencePath with
  | error e => rfl
  | ok v =>
    unfold targetOf
    by_cases hemail : v.str? = some "email"
    · simp only [hemail, decide_true, if_true]
      rfl
    · by_cases hsms : v.str? = some "sms"
      · simp only [hsms]
        rfl
      · by_cases hboth : v.str? = some "both"
        · simp only [hboth]
          rfl
        · simp only [hemail, hsms, hboth, decide_false, if_false]

/-- A preference leads to one executor, to both, or nowhere. -/
theorem targetOf_cases (v : Value) :
    (∃ preference executor name, v = .str preference ∧ (preference, executor) ∈ soloExecutors ∧
      targetOf v = name ∧ reminder.state? name = some (taskOn executor (.str "Pass"))) ∨
    (v = .str "both" ∧ targetOf v = "Send Both") ∨
    ((∀ s ∈ ["email", "sms", "both"], v ≠ .str s) ∧ targetOf v = noMatches) := by
  cases v with
  | str preference =>
    by_cases hemail : preference = "email"
    · subst hemail
      exact .inl ⟨_, emailExecutor, _, rfl, by simp [soloExecutors], rfl, rfl⟩
    · by_cases hsms : preference = "sms"
      · subst hsms
        exact .inl ⟨_, smsExecutor, _, rfl, by simp [soloExecutors], rfl, rfl⟩
      · by_cases hboth : preference = "both"
        · subst hboth
          exact .inr (.inl ⟨rfl, rfl⟩)
        · exact .inr (.inr ⟨by simp [hemail, hsms, hboth], by
            simp [targetOf, Value.str?, hemail, hsms, hboth]⟩)
  | _ => exact .inr (.inr ⟨by simp, rfl⟩)

/-- Whatever the document is, whatever the executors reply and in whatever order it goes on, a chain
of the built-in machine ends after no more than fifteen moves. The document is delivered then,
unless it says to wait for a whole number of seconds that is beyond the doubles. -/
theorem ensures_reminder_of (hemail : knows emailExecutor = true) (hsms : knows smsExecutor = true)
    (replied : ∀ executor input, knows executor = true → ∃ reply, replies executor input reply)
    {doc : Document} {Q : Post}
    (delivers : ∀ calls r ending, Delivered replies doc calls ending →
      (∀ deadline, Outcome.ofResult? deadline r = outcomeOf? deadline ending) → Q calls r)
    (overflows : ∀ n, doc.get waitPath = .ok (.int n) → fitsDouble n = false →
      Q 0 (.error (.crash .numberTooLarge))) :
    Ensures knows replies 15 Q (.ready reminder reminder.start doc) := by
  have hwait : reminder.state? "Wait" =
      some (.wait (.str "$.waitSeconds") .null (.str "ChoiceState")) := by rfl
  have hchoice : reminder.state? "ChoiceState" = some (.choice
      [preferring "email" "Send Email", preferring "sms" "Send SMS", preferring "both" "Send Both"]
      (.str noMatches)) := by rfl
  have hnoMatch : reminder.state? noMatches = some (.fail (.str noMatches) (.str "NoMatches")) := by
    rfl
  refine .ready hwait ?_
  have hread : (Path.parse "$.waitSeconds").toOption.isSome = true := by decide +kernel
  obtain habsent | ⟨v, hv⟩ := get_cases hread doc
  · have htime : waitTime (.str "$.waitSeconds") .null doc = .error (.notFound "$.waitSeconds") := by
      simp only [waitTime, Value.isNull, if_true, Datum.ofValue, habsent]
      rfl
    rw [enterState, htime]
    exact .ended (delivers _ _ _ (.noWait habsent) fun _ => rfl)
  · have htime := @waitTime_of_get (.str "$.waitSeconds") v doc hv
    by_cases hgood : v.IsDuration
    case neg =>
      rw [enterState, htime]
      cases hd : v.duration? with
      | ok t => exact absurd (Value.duration?_eq_ok_iff.1 ⟨t, hd⟩) hgood
      | error fault =>
        cases fault with
        | invalid =>
          obtain ⟨shown, hshown, hfail⟩ | ⟨fault, hmute, hfail⟩ :=
            Failure.showing_cases Failure.duration v
          · have hended : Q 0 (.error (.duration shown)) :=
              delivers _ _ _ (.badWait hv hgood hshown) fun _ => rfl
            simpa only [Except.mapError, hfail] using .ended hended
          · obtain ⟨rfl, hlong⟩ := Value.describe_eq_error_iff.1 hmute
            have hended : Q 0 (.error (.crash (.outside .tooManyDigits))) :=
              delivers _ _ _ (.longWait hv hgood hlong) fun _ => rfl
            simpa only [Except.mapError, hfail] using .ended hended
        | tooLarge =>
          obtain ⟨n, rfl, hn⟩ := duration?_tooLarge hd
          exact .ended (overflows n hv hn)
    obtain ⟨t, ht⟩ := Value.duration?_eq_ok_iff.2 hgood
    rw [enterState, htime, ht]
    refine .waiting (.ready hchoice ?_)
    rw [enterState, choose_reminder]
    obtain habsent | ⟨p, hp⟩ := get_cases isSome_preferencePath doc
    · rw [preferencePath, habsent]
      exact .ended (delivers _ _ _ (.noPreference hv hgood habsent) fun _ => rfl)
    · rw [preferencePath, hp]
      show Ensures knows replies 12 _ (.ready reminder (targetOf p) doc)
      obtain ⟨preference, executor, name, rfl, hwhich, rfl, hs⟩ | ⟨rfl, htarget⟩ | ⟨hother, htarget⟩ :=
        targetOf_cases p
      · have hknown : knows executor = true := by
          simp only [soloExecutors, List.mem_cons, Prod.mk.injEq, List.not_mem_nil, or_false] at hwhich
          rcases hwhich with ⟨-, rfl⟩ | ⟨-, rfl⟩
          · exact hemail
          · exact hsms
        refine (ensures_solo replied hknown hs fun reply hreply => ?_).mono (by omega)
        exact delivers _ _ _ (.solo hv hgood hp hwhich hreply) fun deadline =>
          ofResult?_resultOf deadline executor (given reply)
      · rw [htarget]
        refine ensures_both hemail hsms replied fun first second executor hfirst hsecond => ?_
        exact delivers _ _ _ (.both hv hgood hp hfirst hsecond) fun deadline =>
          ofResult?_resultOf deadline executor (together (given first) (given second))
      · rw [htarget]
        exact .ready hnoMatch (.ended (delivers _ _ _ (.noMatch hv hgood hp hother) fun _ => rfl))

theorem ensures_reminder (hemail : knows emailExecutor = true) (hsms : knows smsExecutor = true)
    (replied : ∀ executor input, knows executor = true → ∃ reply, replies executor input reply)
    (doc : Document) (hfits : ∀ n, doc.get waitPath = .ok (.int n) → fitsDouble n = true) :
    Ensures knows replies 15 (fun calls r => ∃ ending, Delivered replies doc calls ending ∧
        ∀ deadline, Outcome.ofResult? deadline r = outcomeOf? deadline ending)
      (.ready reminder reminder.start doc) := by
  refine ensures_reminder_of hemail hsms replied
    (fun calls r ending hdelivered htold => ⟨ending, hdelivered, htold⟩) fun n hn hbeyond => ?_
  rw [hfits n hn] at hbeyond
  cases hbeyond

end Chain

end ReminderFlow
