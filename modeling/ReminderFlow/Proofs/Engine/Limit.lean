import Mathlib.Data.List.Forall2
import ReminderFlow.Proofs.Engine.Lifecycle

namespace ReminderFlow

/-- Outcomes that are the same, unless each tells of its own deadline. -/
inductive Outcome.Redated (a b : Instant) : Outcome → Outcome → Prop where
  | same (o : Outcome) : Redated a b o o
  | timedOut : Redated a b (.timedOut a) (.timedOut b)

/-- Phases that are the same, but for what an outcome tells of the deadline. -/
inductive Phase.Redated (a b : Instant) : Phase → Phase → Prop where
  | same (p : Phase) : Redated a b p p
  | finishing (at_ : Instant) {o o' : Outcome} (outcome : o.Redated a b o') :
      Redated a b (.finishing at_ o) (.finishing at_ o')
  | done (at_ : Instant) {o o' : Outcome} (outcome : o.Redated a b o') :
      Redated a b (.done at_ o) (.done at_ o')

/-- Records that tell the same but for the deadline. -/
def SameRecord (r s : Record) : Prop :=
  ∃ deadline cause, s = { r with deadline := deadline, cause := cause }

variable {a b : Instant}

theorem sameRecord_refl (r : Record) : SameRecord r r := ⟨r.deadline, r.cause, rfl⟩

theorem Outcome.Redated.symm {o o' : Outcome} (h : o.Redated a b o') : o'.Redated b a o := by
  cases h with
  | same => exact .same o
  | timedOut => exact .timedOut

theorem Outcome.Redated.eq {o o' : Outcome} (h : o.Redated a a o') : o' = o := by
  cases h <;> rfl

namespace Phase

theorem Redated.symm {p q : Phase} (h : p.Redated a b q) : q.Redated b a p := by
  cases h with
  | same => exact .same p
  | finishing at_ outcome => exact .finishing at_ outcome.symm
  | done at_ outcome => exact .done at_ outcome.symm

theorem Redated.eq {p q : Phase} (h : p.Redated a a q) : q = p := by
  cases h with
  | same => rfl
  | finishing at_ outcome => rw [outcome.eq]
  | done at_ outcome => rw [outcome.eq]

theorem Redated.scheduled {q : Phase} (h : Redated a b .scheduled q) : q = .scheduled := by
  cases h
  rfl

theorem Redated.running {c : Chain} {q : Phase} (h : Redated a b (.running c) q) :
    q = .running c := by
  cases h
  rfl

theorem Redated.of_finishing {at_ : Instant} {o : Outcome} {q : Phase}
    (h : Redated a b (.finishing at_ o) q) : ∃ o', q = .finishing at_ o' ∧ o.Redated a b o' := by
  cases h with
  | same => exact ⟨o, rfl, .same o⟩
  | finishing _ outcome => exact ⟨_, rfl, outcome⟩

theorem Redated.end? {p q : Phase} (h : p.Redated a b q) :
    p.end? = none ∧ q.end? = none ∨
      ∃ at_ o o', p.end? = some (at_, o) ∧ q.end? = some (at_, o') ∧ o.Redated a b o' := by
  cases h with
  | same =>
    cases hend : p.end? with
    | none => exact .inl ⟨rfl, rfl⟩
    | some ending => exact .inr ⟨ending.1, ending.2, ending.2, rfl, rfl, .same _⟩
  | finishing at_ outcome => exact .inr ⟨at_, _, _, rfl, rfl, outcome⟩
  | done at_ outcome => exact .inr ⟨at_, _, _, rfl, rfl, outcome⟩

end Phase

/-- Only the fault of a chain that passes for the deadline is told by it. -/
theorem Outcome.redated_of_ofResult? {r : Except Failure Document} {o : Outcome}
    (h : ofResult? a r = some o) : ∃ o', ofResult? b r = some o' ∧ o.Redated a b o' := by
  unfold ofResult? at h ⊢
  split at h
  · exact ⟨o, h, .same o⟩
  · rename_i c
    unfold ofFault? at h ⊢
    split at h
    · cases h
      exact ⟨_, rfl, .timedOut⟩
    · exact ⟨o, h, .same o⟩
    · exact ⟨o, h, .same o⟩
  · exact ⟨o, h, .same o⟩

theorem sameRecord_last? {o o' : Outcome} (h : o.Redated a b o') (id : String)
    (started updated : Instant) (input : Document) (states : List (String × String)) (at_ : Instant) :
    Option.Rel SameRecord (Record.last? id started a updated input states at_ o)
      (Record.last? id started b updated input states at_ o') := by
  cases h with
  | timedOut => exact .some ⟨_, _, rfl⟩
  | same =>
    unfold Record.last?
    cases Record.textOrNull o.error with
    | none => exact .none
    | some error =>
      cases Record.textOrNull o.cause with
      | none => exact .none
      | some cause => exact .some ⟨_, _, rfl⟩

namespace Engine

/-- The executions under an id are the same, but for the deadline of one id and the outcomes that
tell of it. -/
def Twin (id other : String) (x y : Execution) : Prop :=
  ∃ deadline phase, y = { x with deadline := deadline, phase := phase } ∧
    x.phase.Redated x.deadline deadline phase ∧ (other ≠ id → deadline = x.deadline)

/-- Engines that differ in the deadline of one execution only, and in what tells of it. -/
structure Alike (id : String) (e d : Engine) : Prop where
  registry : d.registry = e.registry
  retention : d.retention = e.retention
  archive : d.archive.isSome = e.archive.isSome
  live : d.live = e.live
  finished : d.finished = e.finished
  writing : List.Forall₂ SameRecord e.writing d.writing
  gates : d.gates = e.gates
  absent : ∀ other, e.execution? other = none → d.execution? other = none
  present : ∀ other x, e.execution? other = some x →
    ∃ y, d.execution? other = some y ∧ Twin id other x y

variable {id other : String} {e d : Engine} {x y : Execution}

theorem twin_refl (id other : String) (x : Execution) : Twin id other x x :=
  ⟨x.deadline, x.phase, rfl, .same _, fun _ => rfl⟩

theorem Twin.symm (h : Twin id other x y) : Twin id other y x := by
  obtain ⟨deadline, phase, rfl, hphase, hsame⟩ := h
  exact ⟨x.deadline, x.phase, rfl, hphase.symm, fun hne => (hsame hne).symm⟩

/-- Under another id nothing differs. -/
theorem Twin.eq (h : Twin id other x y) (hne : other ≠ id) : y = x := by
  obtain ⟨deadline, phase, rfl, hphase, hsame⟩ := h
  obtain rfl := hsame hne
  obtain rfl := hphase.eq
  rfl

theorem Twin.record? (h : Twin id other x y) (name : String) (now : Instant) :
    Option.Rel SameRecord (x.record? name now) (y.record? name now) := by
  obtain ⟨deadline, phase, rfl, hphase, -⟩ := h
  unfold Execution.record?
  obtain ⟨hnone, hnone'⟩ | ⟨at_, o, o', hsome, hsome', houtcome⟩ := hphase.end?
  · simp only [hnone, hnone']
    exact .some ⟨_, _, rfl⟩
  · simp only [hsome, hsome']
    exact sameRecord_last? houtcome name x.started now x.input x.states at_

theorem Alike.closed (h : Alike id e d) : d.closed = e.closed := congrArg Prod.fst h.gates

theorem Alike.shut (h : Alike id e d) : d.shut = e.shut := congrArg Prod.snd h.gates

theorem Alike.execution? (h : Alike id e d) (hd : d.execution? other = some y) :
    ∃ x, e.execution? other = some x ∧ Twin id other x y := by
  cases hx : e.execution? other with
  | none =>
    rw [h.absent other hx] at hd
    cases hd
  | some x =>
    obtain ⟨z, hz, htwin⟩ := h.present other x hx
    obtain rfl := Option.some.inj (hd.symm.trans hz)
    exact ⟨x, rfl, htwin⟩

theorem alike_refl (id : String) (e : Engine) : Alike id e e := by
  refine ⟨rfl, rfl, rfl, rfl, rfl, ?_, rfl, fun _ h => h, fun other x hx => ?_⟩
  · exact List.forall₂_same.2 fun r _ => sameRecord_refl r
  · exact ⟨x, hx, twin_refl id other x⟩

theorem Alike.put (h : Alike id e d) (htwin : Twin id other x y) :
    Alike id (e.put other x) (d.put other y) := by
  refine ⟨h.registry, h.retention, h.archive, h.live, h.finished, h.writing, h.gates,
    fun k hk => ?_, fun k z hz => ?_⟩
  · by_cases heq : k = other
    · subst heq
      rw [execution?_put_self] at hk
      cases hk
    · rw [execution?_put_of_ne _ heq] at hk ⊢
      exact h.absent k hk
  · by_cases heq : k = other
    · subst heq
      rw [execution?_put_self] at hz
      obtain rfl := Option.some.inj hz
      exact ⟨y, execution?_put_self d k y, htwin⟩
    · rw [execution?_put_of_ne _ heq] at hz ⊢
      exact h.present k z hz

theorem Alike.persist (h : Alike id e d) {r s : Option Record} (same : Option.Rel SameRecord r s) :
    Alike id (e.persist r).1 (d.persist s).1 := by
  cases same with
  | none => exact h
  | @some r s same =>
    have hnone : d.archive.isNone = e.archive.isNone := by
      rw [← Option.not_isSome, ← Option.not_isSome, h.archive]
    cases hshut : e.shut with
    | true =>
      simp only [Engine.persist, hnone, h.shut.trans hshut, hshut, if_true]
      split_ifs <;> exact h
    | false =>
      simp only [Engine.persist, hnone, h.shut.trans hshut, hshut, Bool.false_eq_true, if_false]
      split_ifs
      · exact h
      · exact ⟨h.registry, h.retention, h.archive, h.live, h.finished,
          List.rel_append h.writing (.cons same .nil), congrArg (Prod.mk · false) h.closed, h.absent,
          h.present⟩

theorem Alike.follow (h : Alike id e d) (htwin : Twin id other x y) {c : Chain}
    (hphase : x.phase = .running c) (now : Instant) (name : String) (events : List Chain.Event) :
    Alike id (e.follow now name x events).1 (d.follow now name y events).1 ∧
      Twin id other (e.follow now name x events).2.1 (d.follow now name y events).2.1 := by
  induction events generalizing e d x y with
  | nil => exact ⟨h, htwin⟩
  | cons event rest ih =>
    obtain ⟨deadline, phase, rfl, hredated, hsame⟩ := htwin
    let x' : Execution := { x with states := event.track x.states }
    let y' : Execution := { x' with deadline := deadline, phase := phase }
    have htracked : Twin id other x' y' := ⟨deadline, phase, rfl, hredated, hsame⟩
    cases event with
    | entered branch state type =>
      have hrecord : SameRecord (x'.record name now) (y'.record name now) := ⟨_, _, rfl⟩
      exact ih (h.persist (.some hrecord)) htracked hphase
    | _ => exact ih h htracked hphase

theorem Alike.settle (h : Alike id e d) (htwin : Twin id other x y) (now : Instant) {o o' : Outcome}
    (houtcome : o.Redated x.deadline y.deadline o') (left : List Chain.Event)
    (crash : Option Fault) :
    Alike id (e.settle now other x o left crash).1 (d.settle now other y o' left crash).1 := by
  let x' : Execution := { x with states := [], phase := .finishing now o }
  let y' : Execution := { y with states := [], phase := .finishing now o' }
  have hsettled : Twin id other x' y' := by
    obtain ⟨deadline, phase, rfl, -, hsame⟩ := htwin
    exact ⟨deadline, .finishing now o', rfl, .finishing now houtcome, hsame⟩
  exact (h.put hsettled).persist (hsettled.record? other now)

theorem Alike.release (h : Alike id e d) (htwin : Twin id other x y) (at_ : Instant) {o o' : Outcome}
    (houtcome : o.Redated x.deadline y.deadline o') :
    Alike id (e.release other x at_ o).1 (d.release other y at_ o').1 := by
  have hdone : Twin id other { x with phase := .done at_ o, callbacks := [] }
      { y with phase := .done at_ o', callbacks := [] } := by
    obtain ⟨deadline, phase, rfl, -, hsame⟩ := htwin
    exact ⟨deadline, .done at_ o', rfl, .done at_ houtcome, hsame⟩
  have hput := h.put hdone
  refine ⟨h.registry, h.retention, h.archive, ?_, ?_, h.writing, h.gates, hput.absent, hput.present⟩
  · simp only [Engine.release, h.live]
  · simp only [Engine.release, h.finished, h.retention]

theorem isLastRecord_of_same {r s : Record} (h : SameRecord r s) (name : String) :
    isLastRecord name s = isLastRecord name r := by
  obtain ⟨deadline, cause, rfl⟩ := h
  rfl

theorem any_isLastRecord {rs ss : List Record} (h : List.Forall₂ SameRecord rs ss) (name : String) :
    ss.any (isLastRecord name) = rs.any (isLastRecord name) := by
  induction h with
  | nil => rfl
  | cons same _ ih => rw [List.any_cons, List.any_cons, isLastRecord_of_same same, ih]

theorem filter_isLastRecord {rs ss : List Record} (h : List.Forall₂ SameRecord rs ss)
    (name : String) :
    List.Forall₂ SameRecord (rs.filter fun r => !isLastRecord name r)
      (ss.filter fun r => !isLastRecord name r) := by
  induction h with
  | nil => exact .nil
  | @cons r s _ _ same _ ih =>
    rw [List.filter_cons, List.filter_cons, isLastRecord_of_same same]
    cases isLastRecord name r with
    | false => exact .cons same ih
    | true => exact ih

theorem Alike.isWriting (h : Alike id e d) (name : String) : d.isWriting name = e.isWriting name :=
  any_isLastRecord h.writing name

theorem Alike.withdraw (h : Alike id e d) (name : String) :
    Alike id (e.withdraw name).1 (d.withdraw name).1 :=
  ⟨h.registry, h.retention, h.archive, h.live, h.finished, filter_isLastRecord h.writing name,
    h.gates, h.absent, h.present⟩

theorem Alike.honest (h : Alike id e d) {move : Move} (honest : e.Honest move) : d.Honest move := by
  cases move with
  | chain other address inner =>
    intro y c hy hphase
    obtain ⟨x, hx, htwin⟩ := h.execution? hy
    obtain ⟨deadline, phase, rfl, hredated, -⟩ := htwin.symm
    obtain rfl := (hphase ▸ hredated).running
    rw [h.registry]
    exact honest _ c hx rfl
  | _ => trivial

/-- How an execution runs does not depend on its deadline. -/
theorem Twin.running {c : Chain} (h : Twin id other x y) (hphase : x.phase = .running c) :
    y.phase = .running c := by
  obtain ⟨deadline, phase, rfl, hredated, -⟩ := h
  rw [hphase] at hredated
  exact hredated.running

theorem Twin.scheduled (h : Twin id other x y) (hphase : x.phase = .scheduled) :
    y.phase = .scheduled := by
  obtain ⟨deadline, phase, rfl, hredated, -⟩ := h
  rw [hphase] at hredated
  exact hredated.scheduled

theorem Twin.finishing (h : Twin id other x y) {at_ : Instant} {o : Outcome}
    (hphase : x.phase = .finishing at_ o) :
    ∃ o', y.phase = .finishing at_ o' ∧ o.Redated x.deadline y.deadline o' := by
  obtain ⟨deadline, phase, rfl, hredated, -⟩ := h
  rw [hphase] at hredated
  exact hredated.of_finishing

theorem Twin.run (h : Twin id other x y) (c : Chain) :
    Twin id other { x with phase := .running c } { y with phase := .running c } := by
  obtain ⟨deadline, phase, rfl, -, hsame⟩ := h
  exact ⟨deadline, .running c, rfl, .same _, hsame⟩

theorem Alike.again_settle {after : Engine} {more : List Event} (h : Alike id e d)
    (htwin : Twin id other x y) {now : Instant} {o o' : Outcome}
    (houtcome : o.Redated x.deadline y.deadline o') {left : List Chain.Event} {crash : Option Fault}
    (settled : e.settle now other x o left crash = (after, more)) :
    Alike id after (d.settle now other y o' left crash).1 ∧
      ∀ k, chainEvents k (d.settle now other y o' left crash).2 = chainEvents k more := by
  have hsettled := h.settle htwin now houtcome left crash
  obtain ⟨-, -, hseen⟩ := e.settle_spec now other x o left crash
  obtain ⟨-, -, hseen'⟩ := d.settle_spec now other y o' left crash
  rw [settled] at hsettled hseen
  exact ⟨hsettled, fun k => (hseen' k).trans (hseen k).symm⟩

theorem Moves.alike {after : Engine} {now : Instant} {move : Move} {events : List Event}
    (h : Moves e now move after events) (halike : Alike id e d) (hmove : move ≠ .expire id) :
    ∃ after' events', d.step now move = some (after', events') ∧ Alike id after after' ∧
      ∀ k, chainEvents k events' = chainEvents k events := by
  cases h with
  | @begin other x found phase =>
    obtain ⟨y, hy, htwin⟩ := halike.present other x found
    have hphase := htwin.scheduled phase
    have hready : Twin id other { x with phase := .running (.ready x.machine x.machine.start x.input) }
        { y with phase := .running (.ready y.machine y.machine.start y.input) } := by
      obtain ⟨deadline, phase', rfl, -, hsame⟩ := htwin
      exact ⟨deadline, _, rfl, .same _, hsame⟩
    refine ⟨_, [], ?_, halike.put hready, fun _ => rfl⟩
    simp only [step, Option.bind_eq_bind, hy, Option.bind_some, hphase]
  | @chain other address inner x z c next seen f _ found phase made followed =>
    obtain ⟨y, hy, htwin⟩ := halike.present other x found
    obtain ⟨hfollowed, htwins⟩ := halike.follow (htwin.run next) rfl now other seen
    obtain ⟨-, -, -, hseen⟩ := e.follow_spec now other { x with phase := .running next } seen
    obtain ⟨-, -, -, hseen'⟩ := d.follow_spec now other { y with phase := .running next } seen
    rw [followed] at hfollowed htwins hseen
    refine ⟨_, _, ?_, hfollowed.put htwins, fun k => (hseen' k).trans (hseen k).symm⟩
    simp only [step, Option.bind_eq_bind, hy, Option.bind_some, htwin.running phase, halike.registry,
      made]
  | @settle other x r _ o _ found phase told settled =>
    obtain ⟨y, hy, htwin⟩ := halike.present other x found
    obtain ⟨o', htold, houtcome⟩ := Outcome.redated_of_ofResult? (b := y.deadline) told
    obtain ⟨hafter, hseen⟩ := halike.again_settle htwin houtcome settled
    refine ⟨_, _, ?_, hafter, hseen⟩
    simp only [step, Option.bind_eq_bind, hy, Option.bind_some, htwin.running phase, htold,
      Option.map_some]
  | @expire other x c _ _ found phase unended suspended settled =>
    have hne : other ≠ id := by
      rintro rfl
      exact hmove rfl
    obtain ⟨y, hy, htwin⟩ := halike.present other x found
    obtain rfl := htwin.eq hne
    obtain ⟨hafter, hseen⟩ := halike.again_settle htwin (.same _) settled
    refine ⟨_, _, ?_, hafter, hseen⟩
    simp only [step, Option.bind_eq_bind, hy, Option.bind_some, phase, unended, suspended,
      Option.isNone_none, Bool.and_self, if_true]
  | @cancel other x c _ _ found phase closed unended suspended settled =>
    obtain ⟨y, hy, htwin⟩ := halike.present other x found
    obtain ⟨hafter, hseen⟩ := halike.again_settle htwin (.same _) settled
    refine ⟨_, _, ?_, hafter, hseen⟩
    simp only [step, Option.bind_eq_bind, hy, Option.bind_some, htwin.running phase, halike.closed,
      closed, unended, suspended, Option.isNone_none, Bool.and_self, if_true]
  | @withdraw other x at_ o found phase closed unwritten =>
    obtain ⟨y, hy, htwin⟩ := halike.present other x found
    obtain ⟨o', hphase, -⟩ := htwin.finishing phase
    refine ⟨_, (d.withdraw other).2, ?_, halike.withdraw other, fun k => ?_⟩
    · simp only [step, Option.bind_eq_bind, hy, Option.bind_some, hphase, halike.closed, closed,
        halike.isWriting, unwritten, Bool.and_self, if_true]
    · rw [(notes_withdraw _ _).chainEvents, (notes_withdraw _ _).chainEvents]
  | @write r rest a first archive =>
    have hwriting := halike.writing
    rw [first] at hwriting
    obtain ⟨s, others, same, hrest, hd⟩ := List.forall₂_cons_left_iff.1 hwriting
    have harchive := halike.archive
    rw [archive] at harchive
    obtain ⟨b, hb⟩ := Option.isSome_iff_exists.1 harchive
    refine ⟨{ d with writing := others, archive := some (Engine.write b s).1 },
      [.written s (Engine.write b s).2], by simp only [step, hd, hb], ?_, fun _ => rfl⟩
    exact ⟨halike.registry, halike.retention, rfl, halike.live, halike.finished, hrest, halike.gates,
      halike.absent, halike.present⟩
  | @release other x at_ o found phase gone =>
    obtain ⟨y, hy, htwin⟩ := halike.present other x found
    obtain ⟨o', hphase, houtcome⟩ := htwin.finishing phase
    refine ⟨_, (d.release other y at_ o').2, ?_, halike.release htwin at_ houtcome, fun k => ?_⟩
    · simp only [step, Option.bind_eq_bind, hy, Option.bind_some, hphase, halike.isWriting, gone,
        Bool.false_eq_true, if_false]
    · rw [(notes_release _ _ _ _ _).chainEvents, (notes_release _ _ _ _ _).chainEvents]

/-- Two engines have come to be alike again, and the same was to be seen of their chains. -/
structure Again (id : String) (e d : Engine × List Event) : Prop where
  alike : Alike id e.1 d.1
  seen : ∀ k, chainEvents k d.2 = chainEvents k e.2

theorem again_nil (h : Alike id e d) : Again id (e, []) (d, []) := ⟨h, fun _ => rfl⟩

theorem Again.append {e' d' : Engine} {events more events' more' : List Event}
    (h : Again id (e, events) (d, events')) (h' : Again id (e', more) (d', more')) :
    Again id (e', events ++ more) (d', events' ++ more') := by
  refine ⟨h'.alike, fun k => ?_⟩
  rw [chainEvents_append, chainEvents_append, h.seen k, h'.seen k]

theorem Alike.register (h : Alike id e d) (now : Instant) (name : String) (m : Machine)
    (doc : Document) {deadline deadline' : Instant} (hsame : name ≠ id → deadline' = deadline) :
    Again id (e.register now name m doc deadline) (d.register now name m doc deadline') := by
  let x : Execution := ⟨m, doc, now, deadline, [], .scheduled, []⟩
  let y : Execution := ⟨m, doc, now, deadline', [], .scheduled, []⟩
  have htwin : Twin id name x y := ⟨deadline', .scheduled, rfl, .same _, hsame⟩
  have hput := h.put htwin
  have hlive : Alike id { e.put name x with live := e.live ++ [name] }
      { d.put name y with live := d.live ++ [name] } :=
    ⟨h.registry, h.retention, h.archive, by rw [h.live], h.finished, h.writing, h.gates, hput.absent,
      hput.present⟩
  refine ⟨hlive.persist (htwin.record? name now), fun k => ?_⟩
  have hquiet (f : Engine) (t : Instant) : chainEvents k (f.register now name m doc t).2 = [] :=
    (@register_spec f _ now name m doc t _ rfl).2.2.chainEvents k
  rw [hquiet, hquiet]

/-- Either both executions have an outcome, or neither. -/
theorem Twin.outcomes (h : Twin id other x y) : x.outcome? = none ∧ y.outcome? = none ∨
    ∃ o o', x.outcome? = some o ∧ y.outcome? = some o' := by
  obtain ⟨deadline, phase, rfl, hredated, -⟩ := h
  obtain ⟨hnone, hnone'⟩ | ⟨at_, o, o', hsome, hsome', -⟩ := hredated.end?
  · exact .inl ⟨by rw [Execution.outcome?, hnone]; rfl, by rw [Execution.outcome?, hnone']; rfl⟩
  · exact .inr ⟨o, o', by rw [Execution.outcome?, hsome]; rfl, by rw [Execution.outcome?, hsome']; rfl⟩

theorem Alike.addCallback (h : Alike id e d) {callback : Callback} {after : Engine}
    {more : List Event} {raised : Option String}
    (done : e.addCallback other callback = some (after, more, raised)) :
    ∃ after' more' raised', d.addCallback other callback = some (after', more', raised') ∧
      Again id (after, more) (after', more') := by
  obtain ⟨x, hx, hcases⟩ := callback_of_addCallback done
  obtain ⟨y, hy, htwin⟩ := h.present other x hx
  obtain ⟨rfl, o, ho, rfl⟩ | ⟨rfl, hunended, rfl⟩ := hcases
  · obtain ⟨hnone, -⟩ | ⟨_, o', -, ho'⟩ := htwin.outcomes
    · rw [hnone] at ho
      cases ho
    refine ⟨d, [.notified callback other o'], callback.raises, ?_, h, fun _ => rfl⟩
    simp only [Engine.addCallback, Option.bind_eq_bind, hy, Option.bind_some, ho']
  · obtain ⟨-, hunended'⟩ | ⟨o, _, ho, -⟩ := htwin.outcomes
    swap
    · rw [hunended] at ho
      cases ho
    have hcalled : Twin id other { x with callbacks := x.callbacks ++ [callback] }
        { y with callbacks := y.callbacks ++ [callback] } := by
      obtain ⟨deadline, phase, rfl, hredated, hsame⟩ := htwin
      exact ⟨deadline, phase, rfl, hredated, hsame⟩
    refine ⟨d.put other { y with callbacks := y.callbacks ++ [callback] }, [], none, ?_,
      h.put hcalled, fun _ => rfl⟩
    simp only [Engine.addCallback, Option.bind_eq_bind, hy, Option.bind_some, hunended']

theorem Happens.alike {after : Engine} {a : Action} {more : List Event}
    (h : Happens e a after more) (halike : Alike id e d)
    (hstrike : ∀ now, a ≠ .move now (.expire id)) :
    ∃ after' more', Happens d a after' more' ∧ Again id (after, more) (after', more') := by
  cases h with
  | @started now other machine input limit m doc deadline _ _ fresh prepared done passed found =>
    have hagain : Again id (e.register now other m doc deadline)
        (d.register now other m doc deadline) := halike.register now other m doc fun _ => rfl
    rw [done] at hagain
    rw [← halike.closed] at found
    exact ⟨_, _, .started (halike.absent other fresh) prepared rfl found, hagain⟩
  | refused done =>
    rw [enter_eq_error_iff, ← halike.closed, ← enter_eq_error_iff] at done
    exact ⟨d, [], .refused done, again_nil halike⟩
  | @moved now move _ _ honest done =>
    have hmove : move ≠ .expire id := by
      rintro rfl
      exact hstrike now rfl
    obtain ⟨after', events', hd, hafter, hseen⟩ := (moves_of_step done).alike halike hmove
    exact ⟨after', events', .moved (halike.honest honest) hd, hafter, hseen⟩
  | called done =>
    obtain ⟨after', more', raised', hadd, hagain⟩ := halike.addCallback done
    exact ⟨after', more', .called hadd, hagain⟩
  | closed =>
    refine ⟨_, _, .closed, ⟨?_, fun _ => rfl⟩⟩
    exact ⟨halike.registry, halike.retention, halike.archive, halike.live, halike.finished,
      halike.writing, congrArg (Prod.mk true) halike.shut, halike.absent, halike.present⟩
  | stopped closed =>
    refine ⟨_, _, .stopped (halike.closed.trans closed), ⟨?_, fun _ => rfl⟩⟩
    exact ⟨halike.registry, halike.retention, halike.archive, halike.live, halike.finished,
      halike.writing, congrArg (Prod.mk · true) halike.closed, halike.absent, halike.present⟩

/-- As long as the deadline is not delivered, whatever is done to one engine can be done to the
other one, with the same to be seen of all chains. -/
theorem Run.alike {after : Engine} {actions : List Action} {events : List Event}
    (hrun : Run e actions after events) (halike : Alike id e d)
    (hstrike : ∀ now, .move now (.expire id) ∉ actions) :
    ∃ after' events', Run d actions after' events' ∧ Again id (after, events) (after', events') := by
  induction hrun with
  | rest => exact ⟨d, [], .rest, again_nil halike⟩
  | @next actions a f after events more before happens ih =>
    obtain ⟨f', events', hrun', hagain⟩ :=
      ih fun now hmem => hstrike now (List.mem_append_left _ hmem)
    have hnot : ∀ now, a ≠ .move now (.expire id) := by
      rintro now rfl
      exact hstrike now (by simp)
    obtain ⟨after', more', happens', hlast⟩ := happens.alike hagain.alike hnot
    exact ⟨after', events' ++ more', hrun'.next happens', hagain.append hlast⟩

/-- An execution that is started with one limit or with another one, in the same run, has come to
the same point as long as its deadline has not been delivered. -/
theorem same_with_any_limit {first : Engine} {now : Instant} {m : Machine} {doc : Document}
    {deadline other : Instant} {shown shown' : List Event}
    (hstart : first.register now id m doc deadline = (e, shown))
    (hother : first.register now id m doc other = (d, shown')) {after : Engine}
    {actions : List Action} {events : List Event} (hrun : Run e actions after events)
    (hstrike : ∀ now, .move now (.expire id) ∉ actions) :
    ∃ after' events', Run d actions after' events' ∧
      (∀ k, chainEvents k events' = chainEvents k events) ∧
      ∀ k, Option.Rel (Twin id k) (after.execution? k) (after'.execution? k) := by
  have halike : Alike id e d := by
    have hagain : Again id (first.register now id m doc deadline) (first.register now id m doc other) :=
      (alike_refl id first).register now id m doc fun hne => absurd rfl hne
    rw [hstart, hother] at hagain
    exact hagain.alike
  obtain ⟨after', events', hrun', hagain⟩ := hrun.alike halike hstrike
  refine ⟨after', events', hrun', hagain.seen, fun k => ?_⟩
  cases hx : after.execution? k with
  | none =>
    rw [hagain.alike.absent k hx]
    exact .none
  | some x =>
    obtain ⟨y, hy, htwin⟩ := hagain.alike.present k x hx
    rw [hy]
    exact .some htwin

end Engine

end ReminderFlow
