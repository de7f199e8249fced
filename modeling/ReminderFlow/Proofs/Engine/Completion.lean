import ReminderFlow.Proofs.Engine.Plans

namespace ReminderFlow

open Chain (Ensures)

namespace Scheduler

open Engine (Plays)
open Relation (ReflTransGen)

variable {s t after : Scheduler} {id : String} {k n : Nat}

/-- The writer is at work as long as there is something to write. -/
def IsTended (s : Scheduler) : Prop := s.writer.isSome = !s.engine.writing.isEmpty

theorem isTended_rouse (s : Scheduler) : s.rouse.IsTended := by
  unfold IsTended rouse
  dsimp only
  split_ifs with hempty
  · rw [hempty]
    rfl
  · rw [Bool.eq_false_iff.2 hempty]
    rfl

theorem IsTended.writing_ne_nil (h : s.IsTended) {w : Nat} (hw : s.writer = some w) :
    s.engine.writing ≠ [] := by
  intro hnil
  rw [IsTended, hw, hnil] at h
  cases h

theorem IsTended.writing_eq_nil (h : s.IsTended) (hw : s.writer = none) : s.engine.writing = [] := by
  rw [IsTended, hw] at h
  simpa using h.symm

/-- The execution is attended to, and no more is to be done than so much. -/
structure Nears (s : Scheduler) (id : String) (n : Nat) : Prop where
  sound : s.Sound
  attended : ∃ k, s.Attended id k ∧ s.load k ≤ n
  tended : s.IsTended

/-- As the clock goes on, what is planned stays planned. -/
theorem plans_rouse (s : Scheduler) (now : Nat) : ({ s with now := now }).rouse.plans = s.plans := by
  let isDue (u : Timer) : Bool := u.due ≤ now
  have hsplit : s.timers =
      s.timers.takeWhile isDue ++ s.timers.drop (s.timers.takeWhile isDue).length :=
    List.prefix_append_drop (List.takeWhile_prefix isDue)
  simp only [plans, rouse, List.filterMap_append, List.filterMap_map]
  conv_rhs => rw [hsplit]
  simp only [isDue, List.map_append, List.append_assoc]
  congr 2
  exact congrFun (List.filterMap_eq_map (f := Timer.move)) _

theorem Calm.rouse (h : s.Calm id) (now : Nat) : ({ s with now := now }).rouse.Calm id where
  __ := h
  ready j hj := by
    rcases List.mem_append.1 hj with hj | hdue
    · exact h.ready j hj
    · obtain ⟨u, hu, rfl⟩ := List.mem_map.1 hdue
      exact ⟨u.move, rfl, h.timers u ((List.takeWhile_sublist _).subset hu)⟩
  timers u hu := h.timers u (List.mem_of_mem_drop hu)

theorem Attends.rouse (h : s.Attended id k) (hsound : s.Sound) (now : Nat) :
    ({ s with now := now }).rouse.Nears id (s.load k) := by
  have hplans := plans_rouse s now
  have hattended : ({ s with now := now }).rouse.Attended id k :=
    h.plan [] (h.calm.rouse now) rfl (hplans ▸ .refl _) fun _ => False.elim
  have hload : ({ s with now := now }).rouse.load k = s.load k := by
    rw [load, load, hplans]
    rfl
  exact ⟨Sound.rouse ⟨hsound.awaited, hsound.distinct, hsound.ready, hsound.timers⟩,
    ⟨k, hattended, hload.le⟩, isTended_rouse _⟩

/-- A record that is written is off its way. If it was the last one of the execution, that is to be
released now. -/
theorem Attends.record (h : s.Attended id k) (hwriting : s.engine.writing ≠ []) :
    s.record.Attended id k ∧ s.record.load k < s.load k := by
  obtain ⟨r, rest, hfirst⟩ := List.exists_cons_of_ne_nil hwriting
  obtain ⟨a, ha⟩ := Option.isSome_iff_exists.1 (Bool.and_eq_true_iff.1 h.calm.takes).1
  obtain ⟨x, hx, hleft, hoffers⟩ := h.offered
  let written : Scheduler := ({ s with
    writer := none
    engine := { s.engine with writing := rest, archive := some (Engine.write a r).1 } }).see
      [.written r (Engine.write a r).2]
  have htakes : written.engine.takes = true := by
    have hshut := (Bool.and_eq_true_iff.1 h.calm.takes).2
    exact hshut
  have hcalm : written.Calm id := ⟨h.calm.queued, h.calm.held, h.calm.staffed, h.calm.prompt, htakes,
    h.calm.unclosed, h.calm.alone, h.calm.ready, h.calm.timers⟩
  have hprovides {m : Engine.Move} (hm : x.Offers id m) :
      (m ∈ s.plans ∧ ¬IsCall m) ∨
        (m = .release id ∧ (Engine.isLastRecord id r || rest.any (Engine.isLastRecord id)) = true) := by
    rcases (hoffers m hm).resolve_right not_false with ⟨hplanned, hcall⟩ | ⟨hrelease, hwritten⟩
    · exact .inl ⟨hplanned, hcall⟩
    · rw [Engine.isWriting, hfirst, List.any_cons] at hwritten
      exact .inr ⟨hrelease, hwritten⟩
  rw [record_eq hfirst ha]
  split_ifs with hcompleted
  · have hplans := plans_soon written (.release r.executionId)
    refine ⟨⟨hcalm.soon rfl, x, hx, hleft, fun m hm => .inl ?_⟩, ?_⟩
    · rcases hprovides hm with ⟨hplanned, hcall⟩ | ⟨rfl, hlast⟩
      · exact .planned (hplans.mem_iff.2 (List.mem_cons_of_mem _ hplanned)) hcall
      · cases hthis : Engine.isLastRecord id r with
        | true =>
          have hid : r.executionId = id := of_decide_eq_true (Bool.and_eq_true_iff.1 hthis).1
          exact .planned (hplans.mem_iff.2 (hid ▸ List.mem_cons_self)) not_false
        | false =>
          rw [hthis] at hlast
          exact .writing rfl hlast
    · have hlength : (written.soon (.release r.executionId)).plans.length = s.plans.length + 1 :=
        hplans.length_eq
      have hrest : (written.soon (.release r.executionId)).engine.writing = rest := rfl
      change (written.soon (.release r.executionId)).load k < s.load k
      rw [load, load, hlength, hrest, hfirst, List.length_cons]
      omega
  · refine ⟨⟨hcalm, x, hx, hleft, fun m hm => .inl ?_⟩, ?_⟩
    · rcases hprovides hm with ⟨hplanned, hcall⟩ | ⟨rfl, hlast⟩
      · exact .planned hplanned hcall
      · have hthis : Engine.isLastRecord id r = false := by
          rw [Engine.isLastRecord, Bool.eq_false_iff.2 hcompleted, Bool.and_false]
        rw [hthis] at hlast
        exact .writing rfl hlast
    · have hplans : written.plans = s.plans := rfl
      have hrest : written.engine.writing = rest := rfl
      change written.load k < s.load k
      rw [load, load, hplans, hrest, hfirst, List.length_cons]
      omega

theorem foreseen_of_not_reply {m : Engine.Move} (h : ¬IsReply m) : m.foreseen = m := by
  cases m with
  | chain id address move =>
    cases move with
    | reply r => exact absurd trivial h
    | _ => rfl
  | _ => rfl

/-- A turn that is next is taken off what is planned. -/
theorem Attends.next_turn (h : s.Attended id k) {m : Engine.Move} (hcalm : after.Calm id)
    (hengine : after.engine = s.engine) (hplans : s.plans.Perm (m.foreseen :: after.plans)) :
    after.Attends id k (OnlyDue m) := by
  obtain ⟨x, hx, hleft, hoffers⟩ := h.offered
  refine ⟨hcalm, x, hengine ▸ hx, hengine ▸ hleft, fun m' hm => ?_⟩
  rcases (hoffers m' hm).resolve_right not_false with ⟨hplanned, hcall⟩ | ⟨hrelease, hwritten⟩
  · rcases List.mem_cons.1 (hplans.mem_iff.1 hplanned) with heq | hplanned
    · exact .inr ⟨heq, hcall⟩
    · exact .inl (.planned hplanned hcall)
  · exact .inl (.writing hrelease (hengine ▸ hwritten))

/-- With each turn there is less to be done. -/
theorem Attends.perform? (h : s.Attended id k) (hsound : s.Sound) (done : s.perform? = some after) :
    ∃ j, after.Attended id j ∧ after.load j < s.load k := by
  have htaken {m : Engine.Move} {t : Scheduler} (honest : t.engine.Honest m)
      (hm : m.subject?.isSome = true) (hcalm : t.Calm id) (hengine : t.engine = s.engine)
      (hplans : s.plans.Perm (m.foreseen :: t.plans)) (hafter : after = t.take m) :
      ∃ j, after.Attended id j ∧ after.load j < s.load k := by
    obtain ⟨j, hj, hless⟩ := (h.next_turn hcalm hengine hplans).take honest hm
    have hlength := hplans.length_eq
    rw [List.length_cons] at hlength
    subst hafter
    refine ⟨j, hj, hless.trans_lt ?_⟩
    rw [load, load, hengine, hlength]
    omega
  have hcalm := h.calm
  unfold Scheduler.perform? at done
  split at done
  · rename_i m rest hready
    cases done
    obtain ⟨⟨_, heq, hm⟩, hrest⟩ := List.forall_mem_cons.1 (hready ▸ hcalm.ready)
    cases heq
    have hreply := hsound.ready m (hready ▸ List.mem_cons_self)
    refine htaken (m := m) (t := { s with ready := rest }) (honest_of_not_reply hreply _) hm
      ⟨hcalm.queued, hcalm.held, hcalm.staffed, hcalm.prompt, hcalm.takes, hcalm.unclosed,
        hcalm.alone, hrest, hcalm.timers⟩ rfl ?_ rfl
    rw [foreseen_of_not_reply hreply, plans, hready]
    exact .refl _
  · rename_i rest hready
    obtain ⟨_, heq, -⟩ := hcalm.ready .cancelAll (hready ▸ List.mem_cons_self)
    cases heq
  · split at done
    · rename_i hready _ a rest hanswers
      cases done
      have ha := hsound.awaited a (by rw [pending, hanswers]; exact List.mem_cons_self)
      refine htaken (m := .chain a.id a.address (.reply a.result)) (t := { s with answers := rest })
        ha.honest rfl (hcalm.of_same rfl rfl rfl rfl rfl rfl) rfl ?_ rfl
      rw [plans, plans, hanswers]
      exact List.perm_middle
    · cases done

/-- A write has come to its end or a job is ready, so that the clock need not go on. -/
def IsAwake (s : Scheduler) : Prop :=
  (s.writer.any fun w => w ≤ s.now) = true ∨ s.perform?.isSome = true

theorem isAwake_of_ready (h : s.ready ≠ []) : s.IsAwake := by
  refine .inr ?_
  unfold Scheduler.perform?
  split
  · rfl
  · rfl
  · rename_i hready
    exact absurd hready h

/-- What is due first is a timer or a write. -/
theorem due?_eq_some {due : Nat} (h : s.due? = some due) :
    (∃ u rest, s.timers = u :: rest ∧ u.due ≤ due) ∨ s.writer = some due := by
  unfold due? at h
  split at h
  · rename_i u rest w htimers hwriter
    rcases le_total u.due w with hle | hle
    · exact .inl ⟨u, rest, htimers, by rw [← Option.some.inj h, min_eq_left hle]⟩
    · exact .inr (by rw [hwriter, ← h, min_eq_right hle])
  · rename_i u rest htimers hwriter
    exact .inl ⟨u, rest, htimers, (Option.some.inj h).le⟩
  · exact .inr h

/-- When the clock has gone on to what is due, there is something to do. -/
theorem isAwake_rouse (htended : s.IsTended) {due now : Nat} (hdue : s.due? = some due)
    (hnow : due ≤ now) : ({ s with now := now }).rouse.IsAwake := by
  rcases due?_eq_some hdue with ⟨u, rest, htimers, hu⟩ | hwriter
  · refine isAwake_of_ready fun hnil => ?_
    have hfirst : decide (u.due ≤ now) = true := decide_eq_true (hu.trans hnow)
    have hroused : s.timers.takeWhile (fun u => decide (u.due ≤ now)) ≠ [] := by
      rw [htimers, List.takeWhile_cons, hfirst]
      exact List.cons_ne_nil _ _
    have hready := (List.append_eq_nil_iff.1 hnil).2
    exact hroused (List.map_eq_nil_iff.1 hready)
  · have hwriting := htended.writing_ne_nil hwriter
    refine .inl ?_
    simp [rouse, hwriter, List.isEmpty_iff, hwriting, hnow]

theorem Nears.mono {j : Nat} (h : s.Nears id j) (hj : j ≤ n) : s.Nears id n := by
  obtain ⟨k, hattended, hload⟩ := h.attended
  exact ⟨h.sound, ⟨k, hattended, hload.trans hj⟩, h.tended⟩

/-- Each step leaves less to be done, but for the clock, after which there is something to do. -/
theorem Nears.step (h : s.Nears id n) (done : s.step? none = some after) :
    ∃ j ≤ n, after.Nears id j ∧ (j < n ∨ ¬s.IsAwake ∧ after.IsAwake) := by
  obtain ⟨k, hattended, hload⟩ := h.attended
  unfold step? at done
  split_ifs at done with hwrite
  · cases done
    obtain ⟨w, hwriter⟩ : ∃ w, s.writer = some w := by
      cases hwriter : s.writer with
      | none =>
        rw [hwriter] at hwrite
        cases hwrite
      | some w => exact ⟨w, rfl⟩
    obtain ⟨hrecord, hless⟩ := hattended.record (h.tended.writing_ne_nil hwriter)
    have hlt := hless.trans_le hload
    exact ⟨_, hlt.le, hrecord.rouse h.sound.record.sound _, .inl hlt⟩
  · split at done
    · rename_i next hnext
      cases done
      obtain ⟨j, hj, hless⟩ := hattended.perform? h.sound hnext
      have hlt := hless.trans_le hload
      exact ⟨_, hlt.le, hj.rouse (h.sound.perform? hnext).sound _, .inl hlt⟩
    · rename_i hnone
      split at done
      · rename_i due hdue
        cases done
        refine ⟨_, hload, hattended.rouse h.sound _, .inr ⟨?_, ?_⟩⟩
        · rintro (hawake | hawake)
          · exact hwrite hawake
          · rw [hnone] at hawake
            cases hawake
        · exact isAwake_rouse h.tended hdue (le_max_right _ _)
      · cases done

/-- The main chain of an execution has ended with what no outcome can tell. -/
def IsStuck (s : Scheduler) (id : String) : Prop :=
  ∃ x r, s.engine.execution? id = some x ∧ x.phase = .running (.ended r) ∧
    Outcome.ofResult? x.deadline r = none

/-- There is a step as long as an execution that is attended to is neither done nor stuck. -/
theorem Nears.goes_on (h : s.Nears id n) (hdone : isDone id s = false) (hstuck : ¬s.IsStuck id) :
    ∃ after, s.step? none = some after := by
  rw [← Option.isSome_iff_exists]
  obtain ⟨k, hattended, -⟩ := h.attended
  obtain ⟨x, hx, -, hoffers⟩ := hattended.offered
  have hundone : x.phase.isDone = false := by
    rw [← hdone, isDone, hx]
    rfl
  obtain ⟨m, hm⟩ | ⟨r, hphase, htold⟩ := x.exists_offers hundone id
  · unfold step?
    split_ifs with hwrite
    · rfl
    · split
      · rfl
      · rename_i hnone
        -- Nothing is ready, so that what the execution offers is due at some time.
        have hprovides := (hoffers m hm).resolve_right not_false
        have hdue : s.due? ≠ none := by
          intro hdue
          obtain ⟨htimers, hwriter⟩ : s.timers = [] ∧ s.writer = none := by
            unfold due? at hdue
            split at hdue <;> simp_all
          obtain ⟨hready, hanswers⟩ : s.ready = [] ∧ s.answers = [] := by
            unfold Scheduler.perform? at hnone
            split at hnone
            · cases hnone
            · cases hnone
            · split at hnone <;> simp_all
          rcases hprovides with ⟨hplanned, -⟩ | ⟨-, hwritten⟩
          · rw [plans, hready, htimers, hanswers] at hplanned
            cases hplanned
          · rw [Engine.isWriting, h.tended.writing_eq_nil hwriter] at hwritten
            cases hwritten
        obtain ⟨due, hdue⟩ := Option.ne_none_iff_exists'.1 hdue
        rw [hdue]
        rfl
  · exact absurd ⟨x, r, hx, hphase, htold⟩ hstuck

/-- The next thing to happen, if nothing but that is waited for. -/
def Goes (s after : Scheduler) : Prop := s.step? none = some after

/-- An execution that is attended to is done at some time, unless it gets stuck. -/
theorem Nears.comes (h : s.Nears id n) :
    ∃ t, ReflTransGen Goes s t ∧ t.Nears id n ∧ (isDone id t = true ∨ t.IsStuck id) := by
  induction n using Nat.strong_induction_on generalizing s with
  | h n ih =>
    have hless {t : Scheduler} {j : Nat} (hj : j < n) (ht : t.Nears id j) :
        ∃ u, ReflTransGen Goes t u ∧ u.Nears id n ∧ (isDone id u = true ∨ u.IsStuck id) := by
      obtain ⟨u, hgoes, hu, hover⟩ := ih j hj ht
      exact ⟨u, hgoes, hu.mono hj.le, hover⟩
    by_cases hover : isDone id s = true ∨ s.IsStuck id
    · exact ⟨s, .refl, h, hover⟩
    rw [not_or] at hover
    obtain ⟨after, hafter⟩ := h.goes_on (Bool.eq_false_iff.2 hover.1) hover.2
    obtain ⟨j, hj, hnears, hlt | ⟨-, hawake⟩⟩ := h.step hafter
    · obtain ⟨u, hgoes, hu⟩ := hless hlt hnears
      exact ⟨u, .head hafter hgoes, hu⟩
    -- The clock has gone on: the next step is another one.
    by_cases hover' : isDone id after = true ∨ after.IsStuck id
    · exact ⟨after, .single hafter, hnears.mono hj, hover'⟩
    rw [not_or] at hover'
    obtain ⟨later, hlater⟩ := hnears.goes_on (Bool.eq_false_iff.2 hover'.1) hover'.2
    have hsteps {u : Scheduler} (hgoes : ReflTransGen Goes later u) : ReflTransGen Goes s u :=
      .head hafter (.head hlater hgoes)
    obtain ⟨i, hi, hnears', hlt | ⟨hasleep, -⟩⟩ := hnears.step hlater
    · obtain ⟨u, hgoes, hu⟩ := hless (hlt.trans_le hj) hnears'
      exact ⟨u, hsteps hgoes, hu⟩
    · exact absurd hawake hasleep

theorem Nears.goes (h : s.Nears id n) (hgoes : ReflTransGen Goes s t) : t.Nears id n := by
  induction hgoes with
  | refl => exact h
  | tail _ hstep ih =>
    obtain ⟨j, hj, hnears, -⟩ := ih.step hstep
    exact hnears.mono hj

theorem Sound.goes (h : s.Sound) (hgoes : ReflTransGen Goes s t) : Passes s t := by
  induction hgoes with
  | refl => exact h.passes
  | tail _ hstep ih => exact ih.trans (ih.sound.step? hstep).1

/-- A step that comes before a limit is made whether there is one or not. -/
theorem step?_of_lt {limit : Nat} (done : s.step? none = some after) (hlimit : after.now < limit) :
    s.step? (some limit) = some after := by
  unfold step? at done ⊢
  split_ifs at done ⊢
  · exact done
  · split at done
    · exact done
    · split at done
      · rename_i due hdue
        cases done
        have hbefore : ¬limit ≤ due := fun hle =>
          absurd ((le_max_right (s.now + 1) due).trans_lt hlimit) (not_lt_of_ge hle)
        rw [isOver, if_neg (by simpa using hbefore)]
      · cases done

/-- What comes about before the limit is waited for. -/
theorem Sound.runUntil_of_goes (h : s.Sound) (goal : Scheduler → Bool) {limit : Nat} (rounds : Nat)
    (hgoes : ReflTransGen Goes s t) (hgoal : goal t = true) (hlimit : t.now < limit)
    (hrounds : t.now ≤ s.now + rounds) :
    ∃ u, ReflTransGen Goes s u ∧ goal u = true ∧ Scheduler.runUntil goal (some limit) rounds s = u := by
  induction hgoes using ReflTransGen.head_induction_on generalizing rounds with
  | refl =>
    refine ⟨t, .refl, hgoal, ?_⟩
    cases rounds with
    | zero => rfl
    | succ rounds => rw [Scheduler.runUntil, hgoal, Bool.true_or, if_pos rfl]
  | @head s c hstep hgoes ih =>
    obtain ⟨hpasses, hlater⟩ := h.step? hstep
    have hsince := (hpasses.sound.goes hgoes).since
    cases rounds with
    | zero => omega
    | succ rounds =>
      rw [Scheduler.runUntil]
      by_cases hhere : goal s = true
      · exact ⟨s, .refl, hhere, by rw [hhere, Bool.true_or, if_pos rfl]⟩
      · have hbefore : isOver (some limit) s.now = false := decide_eq_false (by omega)
        rw [Bool.eq_false_iff.2 hhere, hbefore, Bool.or_false, if_neg Bool.false_ne_true,
          step?_of_lt hstep (hsince.trans_lt hlimit)]
        obtain ⟨u, hu, hgoal', heq⟩ := ih hpasses.sound rounds (by omega)
        exact ⟨u, hu.head hstep, hgoal', heq⟩

/-- An execution that is started by itself, and whose chain is sure to come to something, is
attended to. -/
theorem Calm.start {started : Scheduler} {m : Machine} {input limit : Datum} {Q : Chain.Post}
    (h : s.Calm id) (hsound : s.Sound) (hplans : s.plans = []) (hwriting : s.engine.writing = [])
    (hnew : s.engine.execution? id = none)
    (hsure : ∀ doc, Ensures s.engine.registry.contains s.engine.registry.MayReply n Q
      (.ready m m.start doc))
    (done : s.start id (some m) input limit = .ok started) :
    started.Nears id (3 + 5 * ((n + 2) * (n + 2))) := by
  obtain ⟨⟨e, events⟩, hstart, rfl⟩ := map_eq_ok_iff.1 done
  obtain ⟨-, m', doc, deadline, hprepare, hregister⟩ := Engine.start_eq hstart
  obtain ⟨heq, -⟩ := Engine.prepare_eq hprepare
  cases heq
  obtain ⟨hexecutions, hregistry, -⟩ := Engine.register_spec hregister
  let x : Execution := ⟨m, doc, s.instant, deadline, [], .scheduled, []⟩
  have hexecution (other : String) :
      e.execution? other = (s.engine.put id x).execution? other := by
    rw [Engine.execution?, hexecutions, Engine.execution?]
  let t : Scheduler := ({ s with engine := e }).see events
  have hcalm : t.Calm id := by
    refine ⟨h.queued, h.held, h.staffed, ?_, (Engine.takes_register hregister).trans h.takes, ?_, ?_,
      h.ready, h.timers⟩
    · show e.registry.IsPrompt
      rw [hregistry]
      exact h.prompt
    · exact (congrArg Prod.fst (Engine.gates_register hregister)).trans h.unclosed
    · intro other hne
      refine (hexecution other).trans ?_
      rw [Engine.execution?_put_of_ne _ hne]
      exact h.alone other hne
  have hx := (hexecution id).trans (Engine.execution?_put_self _ id _)
  have hleft : x.Left s.engine.registry.contains s.engine.registry.MayReply (n + 2) :=
    .scheduled rfl (hsure doc)
  rw [← hregistry] at hleft
  have hbegin := plans_soon t (.begin id)
  have hattended : (t.soon (.begin id)).Attended id (n + 2) :=
    (hcalm.soon rfl).attended hx hleft (fun m hm => hm.eq_begin rfl)
      (.planned (hbegin.mem_iff.2 List.mem_cons_self) not_false)
  have ht : t.Sound := ⟨hsound.awaited_register hnew hregister, hsound.distinct, hsound.ready,
    hsound.timers⟩
  have hnears := hattended.rouse (ht.soon (m := .begin id) not_false).sound (s.now + s.pace.turn)
  refine hnears.mono ?_
  have hlength : (t.soon (.begin id)).plans.length = 1 := by
    rw [hbegin.length_eq, List.length_cons]
    exact congrArg (·.length + 1) hplans
  have hwritten : (t.soon (.begin id)).engine.writing.length ≤ 1 := by
    obtain ⟨hpersist, -⟩ := Engine.persist_of_register hregister
    have hle := Engine.length_writing_persist
      { s.engine.put id x with live := s.engine.live ++ [id] } (some (x.record id s.instant))
    rw [hpersist] at hle
    exact hle.trans (congrArg (·.length + 1) hwriting).le
  rw [load, hlength]
  omega

end Scheduler

end ReminderFlow
