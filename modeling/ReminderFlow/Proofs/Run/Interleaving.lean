import ReminderFlow.Proofs.Run.Course
import ReminderFlow.Proofs.Run.Sequential

namespace ReminderFlow.Sequential

open Chain (Event on Within on_append on_eq_nil_of_within within_nil within_singleton within_leaving
  within_stepAt Replies Course)

variable {knows : String → Bool} {respond : String → Value → Except Fault Datum}

theorem Account.after_nil : Account.after [] = id := rfl

theorem Account.after_after (before seen : List Event) (a : Account) :
    (a.after seen).after before = a.after (before ++ seen) := by
  simp [Account.after]

def conclude (knows : String → Bool) (respond : String → Value → Except Fault Datum)
    (m : Machine) (branch : String) : Turn → Option Account
  | .goOn name doc => m.evaluate knows respond branch name doc
  | .stop r => some (.ofEnd branch r)

theorem evaluate_of_none {m : Machine} {name : String} (h : m.state? name = none)
    (branch : String) (doc : Document) :
    m.evaluate knows respond branch name doc =
      some (.ofEnd branch (.error (.crash (.missingState (.str name))))) := by
  rw [Machine.evaluate, h]

theorem evaluate_of_some {m : Machine} {name : String} {s : State} (h : m.state? name = some s)
    (branch : String) (doc : Document) :
    m.evaluate knows respond branch name doc =
      (Stop.evaluateAll knows respond ⟨m, name, s.next, doc⟩ branch 0 s.branches).bind fun accounts =>
        let (seen, turn) := visit knows respond ⟨m, name, s.next, doc⟩ branch accounts s
        (conclude knows respond m branch turn).map
          (Account.after (.entered branch name s.type :: seen)) := by
  rw [Machine.evaluate, h]
  simp only [Option.bind_eq_bind]
  cases Stop.evaluateAll knows respond ⟨m, name, s.next, doc⟩ branch 0 s.branches with
  | none => rfl
  | some accounts =>
    simp only [Option.bind_some]
    cases (visit knows respond ⟨m, name, s.next, doc⟩ branch accounts s).2 with
    | stop r => rfl
    | goOn target d => exact (Option.map_eq_bind ..).symm

mutual

/-- What is still to come from a chain, if from now on its branches go one after the other. -/
def resume (knows : String → Bool) (respond : String → Value → Except Fault Datum)
    (branch : String) : Chain → Option Account
  | .created m doc => m.evaluate knows respond branch m.start doc
  | .ready m name doc => m.evaluate knows respond branch name doc
  | .waiting stop _ => conclude knows respond stop.machine branch (.past stop.next stop.document)
  | .working stop call started =>
    let (seen, turn) := answered branch stop call (respond call.executor call.input)
    (conclude knows respond stop.machine branch turn).map (Account.after
      (if started then seen else .called branch call.executor call.input :: seen))
  | .forked stop branches =>
    (resumeAll knows respond branch stop.state 0 branches).bind fun accounts =>
      (conclude knows respond stop.machine branch (gathered stop accounts)).map
        (Account.after (accounts.flatMap Account.log))
  | .ended r => some ⟨r, []⟩

def resumeAll (knows : String → Bool) (respond : String → Value → Except Fault Datum)
    (parent state : String) (i : Nat) : List Chain → Option (List Account)
  | [] => some []
  | c :: rest =>
    (resume knows respond (Chain.branchName parent state i) c).bind fun first =>
      (resumeAll knows respond parent state (i + 1) rest).map (first :: ·)

end

theorem resumeAll_created (stop : Stop) (branch : String) (i : Nat) (machines : List Machine) :
    resumeAll knows respond branch stop.state i (machines.map fun m => .created m stop.document) =
      stop.evaluateAll knows respond branch i machines := by
  induction machines generalizing i with
  | nil => rw [Stop.evaluateAll]; rfl
  | cons m rest ih =>
    rw [List.map_cons, resumeAll, resume, ih, Stop.evaluateAll]
    simp only [Option.bind_eq_bind, Option.map_eq_bind]
    rfl

def Turn.chain (m : Machine) : Turn → Chain
  | goOn name doc => .ready m name doc
  | stop r => .ended r

theorem chain_into (m : Machine) (target : Value) (doc : Document) :
    (Turn.into target doc).chain m = Chain.jump m target doc := by
  cases target <;> rfl

theorem chain_past (m : Machine) (next : Value) (doc : Document) :
    (Turn.past next doc).chain m = Chain.follow m next doc := by
  unfold Turn.past Chain.follow
  split_ifs
  · rfl
  · exact chain_into m next doc

theorem chain_answered (branch : String) (stop : Stop) (call : Call)
    (reply : Except Fault Datum) :
    (answered branch stop call reply).2.chain stop.machine = Chain.take stop call reply := by
  cases reply with
  | error f => rfl
  | ok output =>
    simp only [answered, Chain.take]
    cases Chain.store stop call output with
    | error e => rfl
    | ok doc => exact chain_past stop.machine stop.next doc

/-- What is still to come from a chain that has just got there: if it ends there, it is left. -/
def arrive (knows : String → Bool) (respond : String → Value → Except Fault Datum)
    (branch : String) (c : Chain) : Option Account :=
  (resume knows respond branch c).map (Account.after
    (if c.result?.isSome then Chain.leaving branch else []))

theorem arrive_ended (branch : String) (r : Except Failure Document) :
    arrive knows respond branch (.ended r) = some (.ofEnd branch r) := by
  simp [arrive, resume, Chain.result?, Account.after, Account.ofEnd]

theorem arrive_chain (m : Machine) (branch : String) (turn : Turn) :
    arrive knows respond branch (turn.chain m) = conclude knows respond m branch turn := by
  cases turn with
  | goOn name doc =>
    simp [arrive, Turn.chain, conclude, resume, Chain.result?, Account.after_nil]
  | stop r => exact arrive_ended branch r

theorem arrive_of_result?_none {c : Chain} (h : c.result? = none) (branch : String) :
    arrive knows respond branch c = resume knows respond branch c := by
  simp [arrive, h, Account.after_nil]

/-- A state without branches is entered by itself. -/
theorem evaluate_of_branches_nil {m : Machine} {name : String} {s : State}
    (h : m.state? name = some s) (hs : s.branches = []) (branch : String) (doc : Document) :
    m.evaluate knows respond branch name doc =
      (conclude knows respond m branch (visit knows respond ⟨m, name, s.next, doc⟩ branch [] s).2).map
        (Account.after (.entered branch name s.type ::
          (visit knows respond ⟨m, name, s.next, doc⟩ branch [] s).1)) := by
  have hnil : Stop.evaluateAll knows respond ⟨m, name, s.next, doc⟩ branch 0 [] = some [] := by
    rw [Stop.evaluateAll]
  rw [evaluate_of_some h, hs, hnil]
  rfl

theorem evaluate_enter {m : Machine} {name : String} {s : State} (h : m.state? name = some s)
    (branch : String) (doc : Document) :
    m.evaluate knows respond branch name doc =
      (arrive knows respond branch (Chain.enterState knows m name doc s)).map
        (Account.after [.entered branch name s.type]) := by
  cases s with
  | parallel branches strays next =>
    rw [evaluate_of_some h, arrive_of_result?_none rfl]
    have hcreated : resumeAll knows respond branch name 0 (branches.map fun m => .created m doc) =
        Stop.evaluateAll knows respond ⟨m, name, next, doc⟩ branch 0 branches :=
      resumeAll_created ⟨m, name, next, doc⟩ branch 0 branches
    simp only [State.branches, State.next, Chain.enterState, resume]
    rw [hcreated]
    cases Stop.evaluateAll knows respond ⟨m, name, next, doc⟩ branch 0 branches with
    | none => rfl
    | some accounts =>
      simp [visit, Account.after_after, Function.comp_def]
  | succeed =>
    rw [evaluate_of_branches_nil h rfl]
    simp only [visit, Chain.enterState]
    rw [← arrive_chain]
    rfl
  | fail cause error =>
    rw [evaluate_of_branches_nil h rfl]
    simp only [visit, Chain.enterState]
    rw [← arrive_chain]
    rfl
  | pass next =>
    rw [evaluate_of_branches_nil h rfl]
    simp only [visit, Chain.enterState, State.next]
    rw [← chain_past, arrive_chain]
  | choice rules default =>
    rw [evaluate_of_branches_nil h rfl]
    simp only [visit, Chain.enterState]
    cases Chain.choose doc default rules with
    | error f => rw [← arrive_chain]; rfl
    | ok target => rw [← arrive_chain, chain_into]
  | wait secondsPath seconds next =>
    rw [evaluate_of_branches_nil h rfl]
    simp only [visit, Chain.enterState, State.next]
    cases Chain.waitTime secondsPath seconds doc with
    | error f => rw [← arrive_chain]; rfl
    | ok t => rw [arrive_of_result?_none rfl, resume]
  | task resource inputPath outputPath next =>
    rw [evaluate_of_branches_nil h rfl]
    simp only [visit, Chain.enterState, State.next]
    cases Chain.taskCall knows resource inputPath outputPath doc with
    | error f => rw [← arrive_chain]; rfl
    | ok call =>
      rw [arrive_of_result?_none rfl, resume]
      simp [Account.after_after, Function.comp_def]

/-- Branches that have all ended have nothing more to show. -/
theorem resumeAll_of_results {branches : List Chain} {results : List (Except Failure Document)}
    (h : branches.mapM Chain.result? = some results) (parent state : String) (i : Nat) :
    resumeAll knows respond parent state i branches =
      some (results.map fun r => ⟨r, []⟩) := by
  induction branches generalizing results i with
  | nil =>
    have hr : results = [] := by simpa using h.symm
    rw [hr]
    rfl
  | cons c rest ih =>
    simp only [List.mapM_cons, Option.bind_eq_bind, Option.pure_def, Option.bind_eq_some_iff] at h
    obtain ⟨r, hc, more, hrest, hr⟩ := h
    cases c with
    | ended result =>
      simp only [Chain.result?, Option.some.injEq] at hc hr
      rw [← hr, ← hc, resumeAll, ih hrest, resume]
      rfl
    | _ => simp [Chain.result?] at hc

theorem resume_join {stop : Stop} {branches : List Chain}
    {results : List (Except Failure Document)} (h : branches.mapM Chain.result? = some results)
    (branch : String) :
    resume knows respond branch (.forked stop branches) =
      conclude knows respond stop.machine branch
        (.orFail (.past stop.next) (Chain.joined results)) := by
  rw [resume, resumeAll_of_results h]
  have hlog : ((results.map fun r => (⟨r, []⟩ : Account)).flatMap Account.log) = [] := by simp
  have hres : (results.map fun r => (⟨r, []⟩ : Account)).map Account.result = results := by
    simp [Function.comp_def]
  rw [Option.bind_some, gathered, hlog, hres, Account.after_nil, Option.map_id]
  rfl

/-- A chain that makes a move comes to what it would have come to anyway, with what was to be seen
of the move before everything else. -/
theorem resume_move {branch : String} {move : Chain.Move} {c next : Chain} {events : List Event}
    (h : Chain.move? knows branch move c = some (next, events))
    (hr : ∀ r stop call, move = .reply r → c = .working stop call true →
      r = respond call.executor call.input) :
    resume knows respond branch c = (arrive knows respond branch next).map (Account.after events) := by
  unfold Chain.move? at h
  split at h
  case h_1 m doc =>
    obtain ⟨rfl, rfl⟩ := Prod.mk.inj (Option.some.inj h)
    rw [arrive_of_result?_none rfl, Account.after_nil, Option.map_id]
    rfl
  case h_2 m name doc =>
    split at h
    case h_1 s hs =>
      obtain ⟨rfl, rfl⟩ := Prod.mk.inj (Option.some.inj h)
      rw [resume, evaluate_enter hs]
    case h_2 hs =>
      obtain ⟨rfl, rfl⟩ := Prod.mk.inj (Option.some.inj h)
      rw [resume, evaluate_of_none hs, Chain.fail, arrive_ended]
      rfl
  case h_3 stop seconds =>
    obtain ⟨rfl, rfl⟩ := Prod.mk.inj (Option.some.inj h)
    rw [resume, ← chain_past, arrive_chain, Account.after_nil, Option.map_id]
    rfl
  case h_4 stop call =>
    obtain ⟨rfl, rfl⟩ := Prod.mk.inj (Option.some.inj h)
    rw [arrive_of_result?_none rfl]
    simp [resume, Account.after_after, Function.comp_def]
  case h_5 r stop call =>
    obtain ⟨rfl, rfl⟩ := Prod.mk.inj (Option.some.inj h)
    rw [hr r stop call rfl rfl, ← chain_answered branch, arrive_chain]
    cases hc : respond call.executor call.input <;> simp [resume, answered, hc, Chain.refusal]
  case h_6 stop branches =>
    obtain ⟨results, hres, hnext⟩ := Option.map_eq_some_iff.1 h
    rw [resume_join hres]
    cases hj : Chain.joined results with
    | error f =>
      simp only [hj, Prod.mk.injEq] at hnext
      obtain ⟨rfl, rfl⟩ := hnext
      rw [Chain.fail, arrive_ended]
      rfl
    | ok doc =>
      simp only [hj, Prod.mk.injEq] at hnext
      obtain ⟨rfl, rfl⟩ := hnext
      rw [← chain_past, arrive_chain, Account.after_nil, Option.map_id]
      rfl
  case h_7 => simp at h

theorem resume_step {branch : String} {move : Chain.Move} {c next : Chain} {events : List Event}
    (h : Chain.step knows branch move c = some (next, events))
    (hr : ∀ r stop call, move = .reply r → c = .working stop call true →
      r = respond call.executor call.input) :
    resume knows respond branch c = (resume knows respond branch next).map (Account.after events) := by
  obtain ⟨⟨after, seen⟩, hmove, heq⟩ := Option.map_eq_some_iff.1 h
  obtain ⟨rfl, rfl⟩ := Prod.mk.inj heq
  rw [resume_move hmove hr, arrive]
  split_ifs <;> simp [Function.comp_def, Account.after_after]

theorem within_conclude {m : Machine} {branch : String} {turn : Turn} {a : Account}
    (h : conclude knows respond m branch turn = some a) : Within branch a.log := by
  cases turn with
  | goOn name doc => exact within_evaluate_and_evaluateAll.1 _ _ _ _ _ h
  | stop r =>
    rw [← Option.some.inj h]
    exact within_leaving branch

mutual

theorem within_resume {branch : String} {c : Chain} {a : Account}
    (h : resume knows respond branch c = some a) : Within branch a.log := by
  cases c with
  | created m doc => exact within_evaluate_and_evaluateAll.1 _ _ _ _ _ h
  | ready m name doc => exact within_evaluate_and_evaluateAll.1 _ _ _ _ _ h
  | waiting stop seconds => exact within_conclude h
  | working stop call started =>
    obtain ⟨rest, hrest, rfl⟩ := Option.map_eq_some_iff.1 h
    refine Within.append ?_ (within_conclude hrest)
    split_ifs
    · exact within_answered branch stop call _
    · exact (within_singleton rfl).append (within_answered branch stop call _)
  | forked stop branches =>
    obtain ⟨accounts, haccounts, h⟩ := Option.bind_eq_some_iff.1 h
    obtain ⟨rest, hrest, rfl⟩ := Option.map_eq_some_iff.1 h
    exact (ownNames_resumeAll haccounts).within.append (within_conclude hrest)
  | ended r =>
    rw [← Option.some.inj h]
    exact within_nil branch

theorem ownNames_resumeAll {parent state : String} {i : Nat} {branches : List Chain}
    {accounts : List Account}
    (h : resumeAll knows respond parent state i branches = some accounts) :
    OwnNames parent state i accounts := by
  cases branches with
  | nil =>
    rw [← Option.some.inj h]
    trivial
  | cons c rest =>
    obtain ⟨first, hfirst, h⟩ := Option.bind_eq_some_iff.1 h
    obtain ⟨more, hmore, rfl⟩ := Option.map_eq_some_iff.1 h
    exact ⟨within_resume hfirst, ownNames_resumeAll hmore⟩

end

/-- Two accounts with one result, the first of which tells something more of each chain before it
tells what the second one does. -/
structure Before (events : List Event) (a b : Account) : Prop where
  result : a.result = b.result
  log : ∀ name, on name a.log = on name events ++ on name b.log

theorem before_after (events : List Event) (a : Account) : Before events (a.after events) a :=
  ⟨rfl, fun name => on_append name events a.log⟩

/-- An account of one branch in the place of another. -/
theorem resumeAll_set {parent state : String} {i k : Nat} {branches : List Chain} {c next : Chain}
    {events : List Event} {accounts : List Account} (hc : branches[k]? = some c)
    (h : resumeAll knows respond parent state i (branches.set k next) = some accounts)
    (hev : Within (Chain.branchName parent state (i + k)) events)
    (hstep : ∀ b, resume knows respond (Chain.branchName parent state (i + k)) next = some b →
      ∃ a, resume knows respond (Chain.branchName parent state (i + k)) c = some a ∧
        Before events a b) :
    ∃ before, resumeAll knows respond parent state i branches = some before ∧
      before.map Account.result = accounts.map Account.result ∧
      ∀ name, on name (before.flatMap Account.log) =
        on name events ++ on name (accounts.flatMap Account.log) := by
  induction branches generalizing i k accounts with
  | nil => simp at hc
  | cons d rest ih =>
    cases k with
    | zero =>
      have hd : d = c := by simpa using hc
      subst d
      rw [List.set_cons_zero] at h
      obtain ⟨b, hb, h⟩ := Option.bind_eq_some_iff.1 h
      obtain ⟨more, hmore, rfl⟩ := Option.map_eq_some_iff.1 h
      obtain ⟨a, ha, hab⟩ := hstep b hb
      refine ⟨a :: more, ?_, ?_, ?_⟩
      · simp only [Nat.add_zero] at ha
        rw [resumeAll, ha, hmore]
        rfl
      · simp [hab.result]
      · intro name
        simp only [List.flatMap_cons, on_append, hab.log, List.append_assoc]
    | succ k =>
      rw [List.set_cons_succ] at h
      obtain ⟨first, hfirst, h⟩ := Option.bind_eq_some_iff.1 h
      obtain ⟨more, hmore, rfl⟩ := Option.map_eq_some_iff.1 h
      have hplace : i + 1 + k = i + (k + 1) := by omega
      obtain ⟨before, hbefore, hres, hlog⟩ := ih (by simpa using hc) hmore
        (by rwa [hplace]) (by rwa [hplace])
      refine ⟨first :: before, ?_, ?_, ?_⟩
      · rw [resumeAll, hfirst, hbefore]
        rfl
      · simp [hres]
      · intro name
        simp only [List.flatMap_cons, on_append, hlog]
        -- The first branch and the move never tell of the same chain.
        by_cases hn : (Chain.branchName parent state i).toList <+: name.toList
        · rw [on_eq_nil_of_within (by omega) hn hev]
          simp
        · have hnone : on name first.log = [] := by
            rw [on, List.filter_eq_nil_iff]
            intro e he heq
            have hname : e.branch = name := by simpa using heq
            exact hn (hname ▸ within_resume hfirst e he)
          simp [hnone]

/-- Whatever move is made in a tree of chains, the tree comes to what it would have come to. -/
theorem resume_stepAt {move : Chain.Move} {address : List Nat} {branch : String} {c next : Chain}
    {events : List Event} (h : Chain.stepAt knows move address branch c = some (next, events))
    (hr : ∀ r stop call, move = .reply r → c.at? address = some (.working stop call true) →
      r = respond call.executor call.input) {b : Account}
    (hb : resume knows respond branch next = some b) :
    ∃ a, resume knows respond branch c = some a ∧ Before events a b := by
  induction address generalizing branch c next b with
  | nil =>
    rw [Chain.stepAt] at h
    have hstep := resume_step h fun r stop call hm hc => hr r stop call hm (by rw [hc]; rfl)
    rw [hb] at hstep
    exact ⟨b.after events, hstep, before_after events b⟩
  | cons i rest ih =>
    cases c with
    | forked stop branches =>
      simp only [Chain.stepAt, Option.bind_eq_bind, Option.bind_eq_some_iff] at h
      obtain ⟨child, hchild, ⟨after, seen⟩, hafter, hnext⟩ := h
      obtain ⟨rfl, rfl⟩ := Prod.mk.inj (Option.some.inj hnext)
      rw [resume] at hb
      obtain ⟨accounts, haccounts, hb⟩ := Option.bind_eq_some_iff.1 hb
      obtain ⟨last, hlast, rfl⟩ := Option.map_eq_some_iff.1 hb
      have hat (r : Except Fault Datum) (s : Stop) (call : Call) (hm : move = .reply r)
          (hw : child.at? rest = some (.working s call true)) :
          r = respond call.executor call.input :=
        hr r s call hm (by simp [Chain.at?, hchild, hw])
      obtain ⟨before, hbefore, hres, hlog⟩ := resumeAll_set (i := 0) hchild haccounts
        (by simpa using within_stepAt hafter) (by
          intro b hb
          rw [Nat.zero_add] at hb ⊢
          exact ih hafter hat hb)
      refine ⟨last.after (before.flatMap Account.log), ?_, rfl, ?_⟩
      · rw [resume, hbefore, Option.bind_some, gathered, hres]
        rw [gathered] at hlast
        rw [hlast]
        rfl
      · intro name
        simp only [Account.after, on_append, hlog, List.append_assoc]
    | _ => simp [Chain.stepAt] at h

/-- A chain that has ended, in whatever order the moves in its tree were made, has come to what it
comes to with its branches one after the other, and of each chain the same was to be seen. -/
theorem resume_of_course {replies : Replies} {branch : String} {c last : Chain}
    {events : List Event} {r : Except Failure Document}
    (hf : ∀ id input reply, replies id input reply → reply = respond id input)
    (h : Course knows replies branch c events last) (hlast : last = .ended r) :
    ∃ a, resume knows respond branch c = some a ∧ a.result = r ∧
      ∀ name, on name a.log = on name events := by
  induction h with
  | rest c =>
    subst hlast
    exact ⟨⟨r, []⟩, rfl, rfl, fun _ => rfl⟩
  | step honest made _ ih =>
    obtain ⟨b, hb, hres, hlog⟩ := ih hlast
    obtain ⟨a, ha, hab⟩ := resume_stepAt made (by
      intro reply stop call hm hc
      subst hm
      exact hf _ _ _ (honest stop call true hc)) hb
    refine ⟨a, ha, hab.result.trans hres, fun name => ?_⟩
    rw [hab.log, hlog, on_append]

end ReminderFlow.Sequential
