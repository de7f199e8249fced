import ReminderFlow.Proofs.Datum
import ReminderFlow.Proofs.Engine.Goes
import ReminderFlow.Proofs.Engine.Logging
import ReminderFlow.Proofs.Engine.Safety
import ReminderFlow.Proofs.Run.Proper

namespace ReminderFlow

/-- The document of the outcome is proper, if there is one. -/
def Outcome.IsProper (o : Outcome) : Prop := ∀ doc, o.document = some doc → doc.IsProper

/-- The input and the output that the record tells are proper. -/
def Record.TellsProper (r : Record) : Prop := r.input.IsProper ∧ r.output.IsProper

/-- Every document that the execution holds is proper. -/
structure Execution.IsProper (x : Execution) : Prop where
  input : x.input.IsProper
  chain : ∀ c, x.phase = .running c → c.IsProper
  outcome : ∀ at_ o, x.phase.end? = some (at_, o) → o.IsProper

theorem Outcome.isProper_of_ofResult? {deadline : Instant} {r : Except Failure Document}
    {o : Outcome} (told : Outcome.ofResult? deadline r = some o) (h : (Chain.ended r).IsProper) :
    o.IsProper := by
  intro doc hdoc
  unfold ofResult? at told
  split at told
  · cases told
    cases hdoc
    cases h with
    | ended document => exact document doc rfl
  · unfold ofFault? at told
    split at told
    · cases told
      cases hdoc
    · cases told
      cases hdoc
    · obtain ⟨cause, -, rfl⟩ := Option.map_eq_some_iff.1 told
      cases hdoc
  · obtain ⟨report, -, rfl⟩ := Option.map_eq_some_iff.1 told
    cases hdoc

theorem Execution.IsProper.tellsProper_record {x : Execution} (h : x.IsProper) (id : String)
    (now : Instant) : (x.record id now).TellsProper := ⟨h.input, .null⟩

theorem Execution.IsProper.tellsProper {x : Execution} (h : x.IsProper) {id : String}
    {now : Instant} {r : Record} (hr : x.record? id now = some r) : r.TellsProper := by
  unfold Execution.record? at hr
  split at hr
  · cases hr
    exact h.tellsProper_record id now
  · rename_i at_ o hend
    simp only [Record.last?, Option.bind_eq_bind, Option.bind_eq_some_iff] at hr
    obtain ⟨error, -, cause, -, heq⟩ := hr
    cases heq
    refine ⟨h.input, ?_⟩
    cases hdoc : o.document with
    | none =>
      simp only [Option.map_none, Option.getD_none]
      exact .null
    | some doc =>
      simp only [Option.map_some, Option.getD_some]
      exact h.outcome at_ o hend doc hdoc

namespace Engine

/-- Whatever documents and values the event tells are proper. -/
def Event.IsProper : Event → Prop
  | .chain _ event => event.IsProper
  | .recorded r => r.TellsProper
  | .written r _ => r.TellsProper
  | .settled _ o _ => o.IsProper
  | .finished _ o => o.IsProper
  | .notified _ _ o => o.IsProper
  | _ => True

/-- Every document and record that the engine holds is proper. -/
structure IsProper (e : Engine) : Prop where
  executions : ∀ id x, e.execution? id = some x → x.IsProper
  writing : ∀ r ∈ e.writing, r.TellsProper

variable {e : Engine} {now : Instant} {id : String} {x : Execution}

theorem IsProper.put (h : e.IsProper) (hx : x.IsProper) : (e.put id x).IsProper := by
  refine ⟨fun other y hy => ?_, h.writing⟩
  by_cases hne : other = id
  · subst hne
    rw [execution?_put_self] at hy
    cases hy
    exact hx
  · rw [execution?_put_of_ne e hne] at hy
    exact h.executions other y hy

theorem IsProper.persist (h : e.IsProper) {r : Option Record}
    (hr : ∀ record, r = some record → record.TellsProper) :
    (e.persist r).1.IsProper ∧ ∀ event ∈ (e.persist r).2, event.IsProper := by
  obtain ⟨-, hpersist⟩ | ⟨record, -, -, hpersist⟩ | ⟨record, hsome, -, -, hpersist⟩ :=
    e.persist_cases r
  · rw [hpersist]
    exact ⟨h, List.forall_mem_nil _⟩
  · rw [hpersist]
    refine ⟨h, fun event hevent => ?_⟩
    rw [List.mem_singleton.1 hevent]
    trivial
  · rw [hpersist]
    have hproper := hr record hsome
    refine ⟨⟨h.executions, fun s hs => ?_⟩, fun event hevent => ?_⟩
    · rcases List.mem_append.1 hs with hs | hs
      · exact h.writing s hs
      · rw [List.mem_singleton.1 hs]
        exact hproper
    · rw [List.mem_singleton.1 hevent]
      exact hproper

theorem IsProper.follow (h : e.IsProper) (hx : x.IsProper) (now : Instant) (id : String)
    {seen : List Chain.Event} (hseen : ∀ event ∈ seen, event.IsProper) :
    (e.follow now id x seen).1.IsProper ∧ (e.follow now id x seen).2.1.IsProper ∧
      ∀ event ∈ (e.follow now id x seen).2.2, event.IsProper := by
  induction seen generalizing e x with
  | nil => exact ⟨h, hx, by simp [Engine.follow]⟩
  | cons event rest ih =>
    rw [List.forall_mem_cons] at hseen
    have hnext : ({ x with states := event.track x.states } : Execution).IsProper :=
      ⟨hx.input, hx.chain, hx.outcome⟩
    cases event with
    | entered branch state type =>
      obtain ⟨hengine, hrecords⟩ :=
        h.persist (r := some (Execution.record id { x with states := _ } now)) fun record heq => by
          cases heq
          exact hnext.tellsProper_record id now
      obtain ⟨hafter, hexecution, hevents⟩ := ih hengine hnext hseen.2
      refine ⟨hafter, hexecution, ?_⟩
      rw [Engine.follow, List.forall_mem_append, List.forall_mem_cons]
      exact ⟨hrecords, hseen.1, hevents⟩
    | _ =>
      obtain ⟨hafter, hexecution, hevents⟩ := ih h hnext hseen.2
      refine ⟨hafter, hexecution, ?_⟩
      simp only [Engine.follow, List.nil_append, List.forall_mem_cons]
      exact ⟨hseen.1, hevents⟩

theorem isProper_of_left {events : List Chain.Event} (h : ∀ event ∈ events, ∃ b, event = .left b) :
    ∀ event ∈ events.map (Event.chain id), event.IsProper := by
  intro event hevent
  obtain ⟨inner, hinner, rfl⟩ := List.mem_map.1 hevent
  obtain ⟨b, rfl⟩ := h inner hinner
  trivial

theorem IsProper.settle (h : e.IsProper) (hx : x.IsProper) {o : Outcome} (ho : o.IsProper)
    (now : Instant) (id : String) {left : List Chain.Event}
    (hleft : ∀ event ∈ left, ∃ b, event = .left b) (crash : Option Fault) :
    (e.settle now id x o left crash).1.IsProper ∧
      ∀ event ∈ (e.settle now id x o left crash).2, event.IsProper := by
  have hsettled : ({ x with states := [], phase := .finishing now o } : Execution).IsProper := by
    refine ⟨hx.input, fun c hc => ?_, fun at_ o' hend => ?_⟩
    · cases hc
    · cases hend
      exact ho
  obtain ⟨hafter, hrecords⟩ := (h.put hsettled).persist fun r hr => hsettled.tellsProper hr
  refine ⟨hafter, ?_⟩
  rw [Engine.settle, List.forall_mem_append, List.forall_mem_cons]
  exact ⟨isProper_of_left hleft, ho, hrecords⟩

theorem Moves.isProper {move : Move} {after : Engine} {events : List Event}
    (h : Moves e now move after events) (he : e.IsProper) :
    after.IsProper ∧ ∀ event ∈ events, event.IsProper := by
  cases h with
  | @begin id x found phase =>
    have hx := he.executions id x found
    refine ⟨he.put ⟨hx.input, fun c hc => ?_, fun at_ o hend => ?_⟩, by simp⟩
    · cases hc
      exact .ready hx.input
    · cases hend
  | @chain id address inner x y c next seen d _ found phase made followed =>
    have hx := he.executions id x found
    obtain ⟨hnext, hseen⟩ := (hx.chain c phase).stepAt made
    have hmoved : ({ x with phase := .running next } : Execution).IsProper := by
      refine ⟨hx.input, fun c hc => ?_, fun at_ o hend => ?_⟩
      · cases hc
        exact hnext
      · cases hend
    obtain ⟨hengine, hexecution, hevents⟩ := he.follow hmoved now id hseen
    rw [followed] at hengine hexecution hevents
    exact ⟨hengine.put hexecution, hevents⟩
  | @settle id x r _ o _ found phase told settled =>
    have hx := he.executions id x found
    have hsettled := he.settle hx (Outcome.isProper_of_ofResult? told (hx.chain _ phase)) now id
      (List.forall_mem_nil _) (crash? r)
    rwa [settled] at hsettled
  | @expire id x c _ _ found phase unended suspended settled =>
    have hx := he.executions id x found
    have ho : (Outcome.timedOut x.deadline).IsProper := fun doc hdoc => by cases hdoc
    have hsettled := he.settle hx ho now id (left_of_abandon "" c) none
    rwa [settled] at hsettled
  | @cancel id x c _ _ found phase closed unended suspended settled =>
    have hx := he.executions id x found
    have ho : Outcome.cancelled.IsProper := fun doc hdoc => by cases hdoc
    have hsettled := he.settle hx ho now id (left_of_abandon "" c) none
    rwa [settled] at hsettled
  | @withdraw id x at_ o found phase closed unwritten =>
    refine ⟨⟨he.executions, fun r hr => he.writing r (List.mem_filter.1 hr).1⟩, fun event hevent => ?_⟩
    obtain ⟨r, -, rfl⟩ := List.mem_map.1 hevent
    trivial
  | @write r rest a first archive =>
    have hwriting := he.writing
    rw [first, List.forall_mem_cons] at hwriting
    refine ⟨⟨he.executions, hwriting.2⟩, fun event hevent => ?_⟩
    rw [List.mem_singleton.1 hevent]
    exact hwriting.1
  | @release id x at_ o found phase gone =>
    have hx := he.executions id x found
    have ho : o.IsProper := hx.outcome at_ o (by rw [phase]; rfl)
    have hdone : ({ x with phase := .done at_ o, callbacks := [] } : Execution).IsProper := by
      refine ⟨hx.input, fun c hc => ?_, fun at_ o' hend => ?_⟩
      · cases hc
      · cases hend
        exact ho
    refine ⟨⟨(he.put hdone).executions, he.writing⟩, fun event hevent => ?_⟩
    rcases List.mem_cons.1 hevent with rfl | hevent
    · exact ho
    · obtain ⟨c, -, hevent⟩ := List.mem_flatMap.1 hevent
      rcases List.mem_cons.1 hevent with rfl | hevent
      · exact ho
      · obtain ⟨report, -, rfl⟩ := List.mem_map.1 hevent
        trivial

theorem Happens.isProper {a : Action} {after : Engine} {more : List Event}
    (h : Happens e a after more) (he : e.IsProper) :
    after.IsProper ∧ ∀ event ∈ more, event.IsProper := by
  cases h with
  | @started now id machine input limit m doc deadline _ _ fresh prepared done =>
    obtain ⟨-, hdoc, -⟩ := prepare_eq prepared
    obtain ⟨rfl, rfl⟩ := persist_of_register done
    let x : Execution := ⟨m, doc, now, deadline, [], .scheduled, []⟩
    have hx : x.IsProper := by
      refine ⟨Document.isProper_ofDatum hdoc, fun c hc => ?_, fun at_ o hend => ?_⟩
      · cases hc
      · cases hend
    have hlive : IsProper { e.put id x with live := e.live ++ [id] } :=
      ⟨(he.put hx).executions, he.writing⟩
    obtain ⟨hafter, hrecords⟩ := hlive.persist (r := some (x.record id now)) fun r hr => by
      cases hr
      exact hx.tellsProper_record id now
    refine ⟨hafter, List.forall_mem_append.2 ⟨hrecords, ?_⟩⟩
    simp [Event.IsProper]
  | refused done => exact ⟨he, by simp⟩
  | moved honest done => exact (moves_of_step done).isProper he
  | @called id callback _ _ raised done =>
    obtain ⟨x, hx, ⟨rfl, o, ho, rfl⟩ | ⟨rfl, hunended, rfl⟩⟩ := callback_of_addCallback done
    · obtain ⟨⟨at_, o'⟩, hend, rfl⟩ := Option.map_eq_some_iff.1 ho
      refine ⟨he, fun event hevent => ?_⟩
      rw [List.mem_singleton.1 hevent]
      exact (he.executions id x hx).outcome at_ _ hend
    · have hproper := he.executions id x hx
      exact ⟨he.put ⟨hproper.input, hproper.chain, hproper.outcome⟩, by simp⟩
  | closed => exact ⟨⟨he.executions, he.writing⟩, by simp⟩
  | stopped => exact ⟨⟨he.executions, he.writing⟩, by simp⟩

/-- At any point of a run everything is proper that the engine holds or has shown. -/
theorem Run.isProper {first : Engine} {actions : List Action} {events : List Event}
    (hrun : Run first actions e events) (hfirst : first.IsProper) :
    e.IsProper ∧ ∀ event ∈ events, event.IsProper := by
  induction hrun with
  | rest => exact ⟨hfirst, by simp⟩
  | next before happens ih =>
    obtain ⟨hd, hevents⟩ := ih
    obtain ⟨hafter, hmore⟩ := happens.isProper hd
    exact ⟨hafter, List.forall_mem_append.2 ⟨hevents, hmore⟩⟩

theorem isProper_make (registry : Registry) (archive : Option Archive) (retention : Nat) :
    (make registry archive retention).IsProper :=
  ⟨fun _ _ h => (Option.some_ne_none _ h.symm).elim, List.forall_mem_nil _⟩

/-- What is no JSON is not looked at before the machine and the limit, and then it is refused. -/
theorem prepare_of_not_isJson {input : Datum} (h : ¬input.IsJson) (now : Instant)
    (machine : Option Machine) (limit : Datum) :
    ∃ fault, prepare now machine input limit = .error fault ∧
      (machine ≠ none → (∃ seconds, limit.limit? = .ok seconds) →
        ∃ why, input.toValue = .error why ∧ fault = .input why) := by
  obtain ⟨why, hwhy⟩ := Datum.exists_incompatible h
  have hdoc : Document.ofDatum input = .error why := by
    rw [Document.ofDatum, hwhy]
    rfl
  simp only [prepare, bind, Except.bind, pure, Except.pure]
  cases machine with
  | none => exact ⟨.notMachine, by simp [throw, throwThe, MonadExceptOf.throw], by simp⟩
  | some m =>
    cases hlimit : limit.limit? with
    | error fault => exact ⟨.limit fault, by simp [Except.mapError], by simp⟩
    | ok seconds =>
      exact ⟨.input why, by simp [Except.mapError, hdoc], fun _ _ => ⟨why, hwhy, rfl⟩⟩

/-- A start with what is no JSON is refused, and for that reason if the engine is open, there is a
machine, and the limit is one. -/
theorem start_of_not_isJson {input : Datum} (h : ¬input.IsJson) (e : Engine) (now : Instant)
    (id : String) (machine : Option Machine) (limit : Datum) :
    ∃ fault, e.start now id machine input limit = .error fault ∧
      (e.closed = false → machine ≠ none → (∃ seconds, limit.limit? = .ok seconds) →
        ∃ why, input.toValue = .error why ∧ fault = .input why) := by
  obtain ⟨fault, hprepare, hwhy⟩ := prepare_of_not_isJson h now machine limit
  cases hclosed : e.closed with
  | true => exact ⟨.closed, by simp [start, hclosed], by simp⟩
  | false => exact ⟨fault, by simp [start, hclosed, hprepare, Except.map], fun _ => hwhy⟩

/-- A start that is refused changes nothing and shows nothing. -/
theorem Happens.same_of_refused {input : Datum} (h : ¬input.IsJson) {machine : Option Machine}
    {limit : Datum} {after : Engine} {more : List Event}
    {passed : Bool} (happens : Happens e (.start now id machine input limit passed) after more) :
    after = e ∧ more = [] := by
  obtain ⟨fault, hfault, -⟩ := prepare_of_not_isJson h now machine limit
  cases happens with
  | started fresh prepared done =>
    rw [hfault] at prepared
    cases prepared
  | refused done => exact ⟨rfl, rfl⟩

open Chain (Reaches)

/-- A reply that is no JSON ends the chain that made the call. -/
theorem Stands.ends_of_not_isJson {address : List Nat} {name : String} {stop : Stop} {call : Call}
    {output : Datum} (h : e.Stands id address name (.working stop call true))
    (hpath : call.outputPath.IsPath) (houtput : ¬output.IsJson) {after : Engine} {more : List Event}
    (happens : Happens e (.move now (.chain id address (.reply (.ok output)))) after more) :
    ∃ f, after.Stands id address name (.ended (.error f)) ∧
      if (stop.document.set (Datum.ofValue call.outputPath) .null).isOk then
        ∃ why, output.toValue = .error why ∧ f = Chain.refused call.executor why.fault
      else ∃ text, f = .notFound text := by
  obtain ⟨x, c, hx, hphase, hreaches⟩ := h
  obtain ⟨why, hwhy⟩ := Datum.exists_incompatible houtput
  obtain ⟨f, hstore, hkind⟩ := Chain.store_of_not_isJson hpath hwhy
  cases happens with
  | moved honest done =>
    obtain ⟨next, y, made, hy, hnext⟩ := (moves_of_step done).chain_spec hx hphase
    rw [← List.append_nil address] at made
    obtain ⟨d, hd, hreached⟩ := hreaches.stepAt made
    obtain ⟨seen, hmove, -⟩ := Chain.move?_of_step hd
    have hended : d = .ended (.error f) := by
      rw [← (Prod.mk.inj (Option.some.inj hmove)).1, Chain.take, hstore]
      rfl
    rw [hended] at hreached
    refine ⟨f, ⟨y, next, hy, hnext, hreached⟩, ?_⟩
    split_ifs at hkind ⊢
    · exact ⟨why, hwhy, hkind⟩
    · exact hkind

/-- What can be told of an output fails the task. -/
theorem report?_refused {why : Incompatible} (h : why.Tellable) (executor : String) :
    ∃ cause, (Chain.refused executor why.fault).report? =
      some (.str "States.TaskFailed", .str cause) := by
  obtain ⟨message, hmessage⟩ := h.fault
  rw [hmessage]
  exact ⟨_, rfl⟩

/-- In every run of machines that have been read, whatever the executors reply: a start with what is
no JSON is refused and changes nothing, and if nothing else is wrong with it a fault of type is
raised; everything that the engine holds or shows is proper, be it the document of a chain, what an
executor is called with, the document of an outcome, or the input or output of a record; and a chain
whose executor replies with what is no JSON has failed, since its task has, or since the path for
the output cannot be written. The fault is of type, and the task has failed, where what is wrong can
be told. -/
theorem Run.only_json_flows {registry : Registry} {archive : Option Archive} {retention : Nat}
    {actions : List Action} {events : List Event} (hread : AllRead actions)
    (hrun : Run (make registry archive retention) actions e events) :
    (∀ now id machine input limit, ¬input.IsJson →
      (∀ passed after more, Happens e (.start now id machine input limit passed) after more →
        after = e ∧ more = []) ∧
      ∃ fault, e.start now id machine input limit = .error fault ∧
        (e.closed = false → machine ≠ none → (∃ seconds, limit.limit? = .ok seconds) →
          ∃ why, input.toValue = .error why ∧ fault = .input why ∧
            (why.Tellable → ∃ message, fault.fault = .ofText "TypeError" message))) ∧
    (∀ id x, e.execution? id = some x → x.input.IsProper ∧
      (∀ c address d, x.phase = .running c → c.at? address = some d → d.IsProper) ∧
      ∀ o, x.outcome? = some o → o.IsProper) ∧
    (∀ r ∈ e.writing, r.TellsProper) ∧ (∀ event ∈ events, event.IsProper) ∧
    (∀ id address name stop call output now after more,
      e.Stands id address name (.working stop call true) → ¬output.IsJson →
      Happens e (.move now (.chain id address (.reply (.ok output)))) after more →
      ∃ f, after.Stands id address name (.ended (.error f)) ∧
        if (stop.document.set (Datum.ofValue call.outputPath) .null).isOk then
          ∃ why, output.toValue = .error why ∧ (why.Tellable → ∃ cause,
            f.report? = some (.str "States.TaskFailed", .str cause))
        else ∃ cause, f.report? = some (.str "States.PathNotFound", .str cause)) := by
  obtain ⟨hproper, hevents⟩ := hrun.isProper (isProper_make registry archive retention)
  refine ⟨fun now id machine input limit h => ⟨fun passed after more happens => ?_, ?_⟩, ?_,
    hproper.writing, hevents, ?_⟩
  · exact happens.same_of_refused h
  · obtain ⟨fault, hfault, htold⟩ := start_of_not_isJson h e now id machine limit
    refine ⟨fault, hfault, fun hopen hmachine hlimit => ?_⟩
    obtain ⟨why, hwhy, rfl⟩ := htold hopen hmachine hlimit
    exact ⟨why, hwhy, rfl, Incompatible.Tellable.fault⟩
  · intro id x hx
    have hx := hproper.executions id x hx
    refine ⟨hx.input, fun c address d hphase hat => (hx.chain c hphase).at? hat, fun o ho => ?_⟩
    obtain ⟨⟨at_, o'⟩, hend, rfl⟩ := Option.map_eq_some_iff.1 ho
    exact hx.outcome at_ o' hend
  · intro id address name stop call output now after more hstands houtput happens
    have hpath : call.outputPath.IsPath := by
      obtain ⟨x, c, hx, hphase, hreaches⟩ := hstands
      have hfresh : (make registry archive retention).execution? id = none := rfl
      obtain ⟨-, told⟩ := hrun.told hfresh
      have hsound := Chain.sound_course (sound_start hread (told.started x hx))
        ((told.story x hx).runs hphase)
      cases hsound.at? hreaches.at? with
      | working here output => exact output
    obtain ⟨f, hended, hkind⟩ := hstands.ends_of_not_isJson hpath houtput happens
    refine ⟨f, hended, ?_⟩
    split_ifs at hkind ⊢
    · obtain ⟨why, hwhy, rfl⟩ := hkind
      exact ⟨why, hwhy, fun htold => report?_refused htold call.executor⟩
    · obtain ⟨path, rfl⟩ := hkind
      exact ⟨_, rfl⟩

/-- A list of what JSON can tell and, below it, of what it cannot. -/
def spoilt : Datum := .dict [(.str "a", .list [.int 1, .dict [(.str "b", .float .nan)]])]

theorem not_isJson_spoilt : ¬spoilt.IsJson := by
  rw [Datum.isJson_iff]
  rintro ⟨v, h⟩
  cases h

def spoiling : Registry := ⟨[("spoil", Executor.ofFunction "return" fun _ => .ok spoilt)]⟩

def spoilText : Value :=
  .obj [("StartAt", .str "A"), ("States", .obj [("A", .obj [("Type", .str "Task"),
    ("Resource", .str "spoil"), ("OutputPath", .str "$.got")])])]

def spoilMachine : Machine := (Machine.ofJson spoilText).toOption.get (by decide +kernel)

theorem read_spoilMachine : ∃ v, Machine.ofJson v = .ok spoilMachine := ⟨spoilText, eq_ok_get _⟩

/-- The executor has been called and has not replied yet. -/
def asked : Option (List Action × Engine × List Event) :=
  performNew ⟨0⟩ "s" spoilMachine (.dict []) (.int 60)
    [.move (.begin "s"), .move (.chain "s" [] .enter), .move (.chain "s" [] .call)]
    (make spoiling none 0)

/-- A key that has too many digits to be shown. -/
def unshowable : Datum := .dict [(.int (tenTo Text.wholeLimit), .int 1)]

def untold : Option (List Action × Engine × List Event) :=
  performNew ⟨0⟩ "s" spoilMachine (.dict []) (.int 60)
    [.move (.begin "s"), .move (.chain "s" [] .enter), .move (.chain "s" [] .call), .answer "s" [],
      .move (.settle "s")]
    (make ⟨[("spoil", Executor.ofFunction "return" fun _ => .ok unshowable)]⟩ none 0)

/-- An engine that is closed looks at no input; and where what is wrong with a reply cannot be told,
it is not the task that has failed. -/
theorem not_always_told_by_type :
    ((make spoiling none 0).close.start ⟨0⟩ "s" (some spoilMachine) spoilt (.int 60)).mapError
        (fun fault => fault.fault.kind) = .error "RuntimeError" ∧
    untold.any (fun run => (run.2.1.execution? "s").any fun x => x.outcome?.any fun o =>
      Record.textOrNull o.error = some (some "States.Runtime")) = true :=
  ⟨rfl, by decide +kernel⟩

/-- The executor that spoils is at work, and what it replies has a place in the document. -/
def awaitsSpoilt : Phase → Bool
  | .running (.working stop call true) => call.executor = "spoil" ∧
      (stop.document.set (Datum.ofValue call.outputPath) .null).isOk
  | _ => false

theorem only_json_flows_spoilt :
    ∃ actions e events stop call after more f, asked = some (actions, e, events) ∧
      AllRead actions ∧ Run (make spoiling none 0) actions e events ∧
      e.Stands "s" [] "" (.working stop call true) ∧
      Happens e (.move ⟨1⟩ (.chain "s" [] (.reply (.ok spoilt)))) after more ∧
      after.Stands "s" [] "" (.ended (.error f)) ∧
      ∃ cause, f.report? = some (.str "States.TaskFailed", .str cause) := by
  have hworks : asked.any (fun run => (run.2.1.execution? "s").any fun x =>
      awaitsSpoilt x.phase) = true := by decide +kernel
  obtain ⟨⟨actions, e, events⟩, hsome, hany⟩ := (Option.any_eq_true _ _).1 hworks
  obtain ⟨x, hx, hworking⟩ := (Option.any_eq_true _ _).1 hany
  have hread := allRead_of_performNew read_spoilMachine hsome
  have hrun := Run.of_performNew rfl hsome
  unfold awaitsSpoilt at hworking
  split at hworking
  case h_2 => cases hworking
  case h_1 stop call hphase =>
    obtain ⟨hexecutor, hwritable⟩ := of_decide_eq_true hworking
    have hstands : e.Stands "s" [] "" (.working stop call true) := ⟨x, _, hx, hphase, .here _ _⟩
    have hanswer : e.answer? "s" [] = some (.chain "s" [] (.reply (.ok spoilt))) := by
      simp only [answer?, hx, Option.bind_eq_bind, Option.bind_some, hphase, Chain.at?, hexecutor,
        hrun.registry]
      rfl
    have hmoves : (e.step ⟨1⟩ (.chain "s" [] (.reply (.ok spoilt)))).isSome := by
      rw [← List.append_nil [], hstands.isSome_step]
      rfl
    obtain ⟨⟨after, more⟩, hstep⟩ := Option.isSome_iff_exists.1 hmoves
    have happens := Happens.moved (honest_of_answer? hanswer) hstep
    obtain ⟨-, -, -, -, hfails⟩ := hrun.only_json_flows hread
    obtain ⟨f, hended, hkind⟩ := hfails _ _ _ _ _ _ _ _ _ hstands not_isJson_spoilt happens
    rw [if_pos hwritable] at hkind
    obtain ⟨why, hwhy, htold⟩ := hkind
    have htellable : why.Tellable := by
      obtain rfl : Incompatible.nonFinite .nan = why := Except.error.inj hwhy
      trivial
    exact ⟨actions, e, events, stop, call, after, more, f, hsome, hread, hrun, hstands, happens,
      hended, htold htellable⟩

end Engine

end ReminderFlow
