import ReminderFlow.Proofs.Run.Branch

namespace ReminderFlow

def State.branches : State → List Machine
  | parallel branches _ _ => branches
  | _ => []

namespace Sequential

open Chain (Event)

/-- What a chain comes to: its result, and what is to be seen of it and of its branches. -/
structure Account where
  result : Except Failure Document
  log : List Event

/-- Where a chain goes from a state: on to another one, or to its end. -/
inductive Turn where
  | goOn (state : String) (doc : Document)
  | stop (result : Except Failure Document)

namespace Account

def after (seen : List Event) (a : Account) : Account := ⟨a.result, seen ++ a.log⟩

def ofEnd (branch : String) (result : Except Failure Document) : Account :=
  ⟨result, Chain.leaving branch⟩

end Account

namespace Turn

def into (target : Value) (doc : Document) : Turn :=
  match target with
  | .str name => goOn name doc
  | v => stop (.error (.crash (.missingState v)))

/-- Into the successor, or to the end where there is none. -/
def past (next : Value) (doc : Document) : Turn :=
  if next.isNull then stop (.ok doc) else into next doc

def orFail (f : Document → Turn) : Except Failure Document → Turn
  | .ok doc => f doc
  | .error e => stop (.error e)

end Turn

/-- What a reply means for the chain that has made the call. -/
def answered (branch : String) (stop : Stop) (call : Call) :
    Except Fault Datum → List Event × Turn
  | .error f => (Chain.refusal branch call.executor (.error f),
    .stop (.error (Chain.failed call.executor f)))
  | .ok output => ([], .orFail (.past stop.next) (Chain.store stop call output))

/-- The documents of all branches, or the first failure in the order of the branches. -/
def gathered (stop : Stop) (accounts : List Account) : Turn :=
  .orFail (.past stop.next) (Chain.joined (accounts.map Account.result))

section

variable (knows : String → Bool) (respond : String → Value → Except Fault Datum)

/-- What a chain does in a state, given what the branches of the state came to. -/
def visit (stop : Stop) (branch : String) (accounts : List Account) : State → List Event × Turn
  | .succeed => ([], .stop (.ok stop.document))
  | .fail cause error => ([], .stop (.error (.raised error cause)))
  | .pass _ => ([], .past stop.next stop.document)
  | .choice rules default =>
    match Chain.choose stop.document default rules with
    | .ok target => ([], .into target stop.document)
    | .error f => ([], .stop (.error f))
  | .wait secondsPath seconds _ =>
    match Chain.waitTime secondsPath seconds stop.document with
    | .ok _ => ([], .past stop.next stop.document)
    | .error f => ([], .stop (.error f))
  | .task resource inputPath outputPath _ =>
    match Chain.taskCall knows resource inputPath outputPath stop.document with
    | .ok call =>
      let (seen, turn) := answered branch stop call (respond call.executor call.input)
      (.called branch call.executor call.input :: seen, turn)
    | .error f => ([], .stop (.error f))
  | .parallel .. => (accounts.flatMap Account.log, gathered stop accounts)

end

end Sequential

open ReminderFlow.Sequential (Account visit)

section

variable (knows : String → Bool) (respond : String → Value → Except Fault Datum)

mutual

/-- The chain of a machine from one of its states on, if it comes to an end. -/
def Machine.evaluate (m : Machine) (branch name : String) (doc : Document) : Option Account :=
  match m.state? name with
  | none => some (.ofEnd branch (.error (.crash (.missingState (.str name)))))
  | some s => do
    let accounts ← Stop.mk m name s.next doc |>.evaluateAll branch 0 s.branches
    let (seen, turn) := visit knows respond ⟨m, name, s.next, doc⟩ branch accounts s
    match turn with
    | .goOn next doc => do
      let rest ← m |>.evaluate branch next doc
      some (rest.after (.entered branch name s.type :: seen))
    | .stop r => some ((Account.ofEnd branch r).after (.entered branch name s.type :: seen))
  partial_fixpoint

/-- The branches of a state from a place on, one after the other. -/
def Stop.evaluateAll (stop : Stop) (branch : String) (i : Nat) (machines : List Machine) :
    Option (List Account) :=
  match machines with
  | [] => some []
  | m :: rest => do
    let first ← m |>.evaluate (Chain.branchName branch stop.state i) m.start stop.document
    let more ← stop |>.evaluateAll branch (i + 1) rest
    some (first :: more)
  partial_fixpoint

end

end

namespace Sequential

open Chain (Event Within within_nil within_singleton within_leaving within_refusal
  prefix_branchName)

variable (knows : String → Bool) (respond : String → Value → Except Fault Datum)

/-- A whole machine, as the main chain of an execution. -/
def run (m : Machine) (doc : Document) : Option Account :=
  m.evaluate knows respond "" m.start doc

variable {knows respond}

/-- The accounts of the branches of a state, from a place on, tell each of its own branch. -/
def OwnNames (parent state : String) : Nat → List Account → Prop
  | _, [] => True
  | i, a :: rest =>
    Within (Chain.branchName parent state i) a.log ∧ OwnNames parent state (i + 1) rest

theorem OwnNames.within {parent state : String} {i : Nat} {accounts : List Account}
    (h : OwnNames parent state i accounts) : Within parent (accounts.flatMap Account.log) := by
  induction accounts generalizing i with
  | nil => exact within_nil parent
  | cons a rest ih =>
    rw [List.flatMap_cons]
    exact (h.1.widen (prefix_branchName parent state i)).append (ih h.2)

theorem within_answered (branch : String) (stop : Stop) (call : Call)
    (reply : Except Fault Datum) : Within branch (answered branch stop call reply).1 := by
  cases reply with
  | error f => exact within_refusal branch call.executor (.error f)
  | ok output => exact within_nil branch

theorem within_visit (stop : Stop) {branch : String} {accounts : List Account}
    (h : OwnNames branch stop.state 0 accounts) (s : State) :
    Within branch (visit knows respond stop branch accounts s).1 := by
  cases s with
  | parallel branches strays next => exact h.within
  | choice rules default =>
    simp only [visit]
    cases Chain.choose stop.document default rules <;> exact within_nil branch
  | wait secondsPath seconds next =>
    simp only [visit]
    cases Chain.waitTime secondsPath seconds stop.document <;> exact within_nil branch
  | task resource inputPath outputPath next =>
    simp only [visit]
    cases Chain.taskCall knows resource inputPath outputPath stop.document with
    | error f => exact within_nil branch
    | ok call => exact (within_singleton rfl).append (within_answered branch stop call _)
  | succeed => exact within_nil branch
  | fail cause error => exact within_nil branch
  | pass next => exact within_nil branch

theorem within_evaluate_and_evaluateAll :
    (∀ (m : Machine) branch name doc a, m.evaluate knows respond branch name doc = some a →
      Within branch a.log) ∧
    (∀ (stop : Stop) branch i machines accounts,
      stop.evaluateAll knows respond branch i machines = some accounts →
      OwnNames branch stop.state i accounts) := by
  apply Machine.evaluate.mutual_partial_correctness knows respond
    (fun _ branch _ _ a => Within branch a.log)
    (fun stop branch i _ accounts => OwnNames branch stop.state i accounts)
  · intro evaluate evaluateAll hone hall m branch name doc a h
    split at h
    · rw [← Option.some.inj h]
      exact within_leaving branch
    · rename_i s hs
      simp only [Option.bind_eq_bind, Option.bind_eq_some_iff] at h
      obtain ⟨accounts, haccounts, h⟩ := h
      have hseen : Within branch
          (visit knows respond ⟨m, name, s.next, doc⟩ branch accounts s).1 :=
        within_visit _ (hall _ branch 0 s.branches accounts haccounts) s
      have hhead : Within branch [Event.entered branch name s.type] := within_singleton rfl
      split at h
      · obtain ⟨rest, hrest, h⟩ := Option.bind_eq_some_iff.1 h
        rw [← Option.some.inj h]
        exact hhead.append (hseen.append (hone _ _ _ _ _ hrest))
      · rw [← Option.some.inj h]
        exact hhead.append (hseen.append (within_leaving branch))
  · intro evaluate evaluateAll hone hall stop branch i machines accounts h
    cases machines with
    | nil =>
      rw [← Option.some.inj h]
      trivial
    | cons m rest =>
      simp only [Option.bind_eq_bind, Option.bind_eq_some_iff] at h
      obtain ⟨first, hfirst, more, hmore, h⟩ := h
      rw [← Option.some.inj h]
      exact ⟨hone _ _ _ _ _ hfirst, hall _ _ _ _ _ hmore⟩

end Sequential

end ReminderFlow
