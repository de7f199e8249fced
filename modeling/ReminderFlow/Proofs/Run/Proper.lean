import ReminderFlow.Proofs.Document
import ReminderFlow.Proofs.Run.Contents

namespace ReminderFlow

/-- A datum that JSON can tell: its doubles are finite and the keys of its dictionaries are texts.
A tuple is told as a list. -/
inductive Datum.IsJson : Datum → Prop
  | null : IsJson .null
  | bool (b : Bool) : IsJson (.bool b)
  | int (n : Int) : IsJson (.int n)
  | float {x : Double} (finite : x.isFinite = true) : IsJson (.float x)
  | str (s : String) : IsJson (.str s)
  | list {items : List Datum} (each : ∀ d ∈ items, IsJson d) : IsJson (.list items)
  | tuple {items : List Datum} (each : ∀ d ∈ items, IsJson d) : IsJson (.tuple items)
  | dict {entries : List (Datum × Datum)} (keys : ∀ p ∈ entries, ∃ name, p.1 = .str name)
      (each : ∀ p ∈ entries, IsJson p.2) : IsJson (.dict entries)

namespace Datum

mutual

theorem exists_toValue : (d : Datum) → d.IsJson → ∃ v, d.toValue = .ok v
  | .null, _ => ⟨.null, rfl⟩
  | .bool b, _ => ⟨.bool b, rfl⟩
  | .int n, _ => ⟨.int n, rfl⟩
  | .float x, h => by
    cases h with
    | float finite => exact ⟨.float x, by rw [toValue, if_pos finite]⟩
  | .str s, _ => ⟨.str s, rfl⟩
  | .list items, h => by
    cases h with
    | list each =>
      obtain ⟨values, hvalues⟩ := exists_toItems items each
      exact ⟨.arr values, by rw [toValue, hvalues]; rfl⟩
  | .tuple items, h => by
    cases h with
    | tuple each =>
      obtain ⟨values, hvalues⟩ := exists_toItems items each
      exact ⟨.arr values, by rw [toValue, hvalues]; rfl⟩
  | .dict entries, h => by
    cases h with
    | dict keys each =>
      obtain ⟨members, hmembers⟩ := exists_toMembers entries keys each
      exact ⟨.obj (Members.ofList members), by rw [toValue, hmembers]; rfl⟩
  | .foreign thing, h => by cases h

theorem exists_toItems : (items : List Datum) → (∀ d ∈ items, d.IsJson) →
    ∃ values, toItems items = .ok values
  | [], _ => ⟨[], rfl⟩
  | d :: rest, h => by
    rw [List.forall_mem_cons] at h
    obtain ⟨v, hv⟩ := exists_toValue d h.1
    obtain ⟨values, hvalues⟩ := exists_toItems rest h.2
    exact ⟨v :: values, by rw [toItems, hv, hvalues]; rfl⟩

theorem exists_toMembers : (entries : List (Datum × Datum)) →
    (∀ p ∈ entries, ∃ name, p.1 = .str name) → (∀ p ∈ entries, p.2.IsJson) →
    ∃ members, toMembers entries = .ok members
  | [], _, _ => ⟨[], rfl⟩
  | (k, d) :: rest, hkeys, heach => by
    rw [List.forall_mem_cons] at hkeys heach
    obtain ⟨name, rfl⟩ := hkeys.1
    obtain ⟨v, hv⟩ := exists_toValue d heach.1
    obtain ⟨members, hmembers⟩ := exists_toMembers rest hkeys.2 heach.2
    exact ⟨(name, v) :: members, by rw [toMembers, hv, hmembers]; rfl⟩

end

mutual

theorem isJson_of_toValue : (d : Datum) → {v : Value} → d.toValue = .ok v → d.IsJson
  | .null, _, _ => .null
  | .bool b, _, _ => .bool b
  | .int n, _, _ => .int n
  | .float x, _, h => by
    rw [toValue] at h
    split_ifs at h with hx
    exact .float hx
  | .str s, _, _ => .str s
  | .list items, _, h => by
    rw [toValue] at h
    obtain ⟨values, hvalues, -⟩ := map_eq_ok_iff.1 h
    exact .list (isJson_of_toItems items hvalues)
  | .tuple items, _, h => by
    rw [toValue] at h
    obtain ⟨values, hvalues, -⟩ := map_eq_ok_iff.1 h
    exact .tuple (isJson_of_toItems items hvalues)
  | .dict entries, _, h => by
    rw [toValue] at h
    obtain ⟨members, hmembers, -⟩ := map_eq_ok_iff.1 h
    obtain ⟨hkeys, heach⟩ := isJson_of_toMembers entries hmembers
    exact .dict hkeys heach
  | .foreign thing, _, h => by cases h

theorem isJson_of_toItems : (items : List Datum) → {values : List Value} →
    toItems items = .ok values → ∀ d ∈ items, d.IsJson
  | [], _, _ => by simp
  | d :: rest, _, h => by
    rw [toItems] at h
    obtain ⟨v, hv, h⟩ := bind_eq_ok_iff.1 h
    obtain ⟨more, hmore, -⟩ := bind_eq_ok_iff.1 h
    exact List.forall_mem_cons.2 ⟨isJson_of_toValue d hv, isJson_of_toItems rest hmore⟩

theorem isJson_of_toMembers : (entries : List (Datum × Datum)) →
    {members : List (String × Value)} → toMembers entries = .ok members →
    (∀ p ∈ entries, ∃ name, p.1 = .str name) ∧ ∀ p ∈ entries, p.2.IsJson
  | [], _, _ => by simp
  | (k, d) :: rest, _, h => by
    cases k with
    | str name =>
      rw [toMembers] at h
      obtain ⟨v, hv, h⟩ := bind_eq_ok_iff.1 h
      obtain ⟨more, hmore, -⟩ := bind_eq_ok_iff.1 h
      obtain ⟨hkeys, heach⟩ := isJson_of_toMembers rest hmore
      exact ⟨List.forall_mem_cons.2 ⟨⟨name, rfl⟩, hkeys⟩,
        List.forall_mem_cons.2 ⟨isJson_of_toValue d hv, heach⟩⟩
    | _ => cases h

end

/-- A document takes a datum if and only if JSON can tell it. -/
theorem isJson_iff {d : Datum} : d.IsJson ↔ ∃ v, d.toValue = .ok v :=
  ⟨exists_toValue d, fun ⟨_, h⟩ => isJson_of_toValue d h⟩

theorem exists_incompatible {d : Datum} (h : ¬d.IsJson) : ∃ why, d.toValue = .error why := by
  cases hd : d.toValue with
  | ok v => exact absurd (isJson_iff.2 ⟨v, hd⟩) h
  | error why => exact ⟨why, rfl⟩

end Datum

namespace Chain

/-- Every document in the tree is proper, and so is what executors are called with. -/
inductive IsProper : Chain → Prop
  | created {m : Machine} {doc : Document} (document : doc.IsProper) : IsProper (created m doc)
  | ready {m : Machine} {name : String} {doc : Document} (document : doc.IsProper) :
      IsProper (ready m name doc)
  | waiting {stop : Stop} {seconds : Number} (document : stop.document.IsProper) :
      IsProper (waiting stop seconds)
  | working {stop : Stop} {call : Call} {started : Bool} (document : stop.document.IsProper)
      (input : call.input.IsProper) : IsProper (working stop call started)
  | forked {stop : Stop} {branches : List Chain} (document : stop.document.IsProper)
      (each : ∀ c ∈ branches, IsProper c) : IsProper (forked stop branches)
  | ended {result : Except Failure Document} (document : ∀ doc, result = .ok doc → doc.IsProper) :
      IsProper (ended result)

/-- What is to be seen of a call is what the executor is called with. -/
def Event.IsProper : Event → Prop
  | called _ _ input => input.IsProper
  | _ => True

variable {knows : String → Bool}

theorem isProper_fail (f : Failure) : IsProper (fail f) :=
  .ended fun _ heq => by cases heq

theorem isProper_jump (m : Machine) (target : Value) {doc : Document} (h : doc.IsProper) :
    IsProper (jump m target doc) := by
  cases target with
  | str name => exact .ready h
  | _ => exact isProper_fail _

theorem isProper_follow (m : Machine) (next : Value) {doc : Document} (h : doc.IsProper) :
    IsProper (follow m next doc) := by
  unfold follow
  split_ifs
  · refine .ended fun other heq => ?_
    cases heq
    exact h
  · exact isProper_jump m next h

theorem isProper_of_taskCall {resource inputPath outputPath : Value} {doc : Document} {call : Call}
    (h : doc.IsProper) (hcall : taskCall knows resource inputPath outputPath doc = .ok call) :
    call.input.IsProper := by
  unfold taskCall at hcall
  split at hcall
  · split_ifs at hcall
    obtain ⟨v, hv, rfl⟩ := map_eq_ok_iff.1 hcall
    cases hget : doc.get (Datum.ofValue inputPath) with
    | ok w =>
      rw [hget] at hv
      cases hv
      exact h.get hget
    | error e =>
      rw [hget] at hv
      cases hv
  · cases hcall

theorem isProper_enterState (m : Machine) (name : String) {doc : Document} (h : doc.IsProper)
    (s : State) : IsProper (enterState knows m name doc s) := by
  cases s with
  | succeed =>
    refine .ended fun other heq => ?_
    cases heq
    exact h
  | fail cause error => exact isProper_fail _
  | pass next => exact isProper_follow m next h
  | choice rules default =>
    rw [enterState]
    split
    · exact isProper_jump m _ h
    · exact isProper_fail _
  | wait secondsPath seconds next =>
    rw [enterState]
    split
    · exact .waiting h
    · exact isProper_fail _
  | task resource inputPath outputPath next =>
    rw [enterState]
    split
    · rename_i call hcall
      exact .working h (isProper_of_taskCall h hcall)
    · exact isProper_fail _
  | parallel branches strays next =>
    refine .forked h fun c hc => ?_
    obtain ⟨b, -, rfl⟩ := List.mem_map.1 hc
    exact .created h

/-- Whatever an executor replies, the chain goes on with a proper document or fails. -/
theorem isProper_take {stop : Stop} (call : Call) (h : stop.document.IsProper)
    (reply : Except Fault Datum) : IsProper (take stop call reply) := by
  cases reply with
  | error fault => exact isProper_fail _
  | ok output =>
    rw [take, store]
    cases hdoc : stop.document.set (Datum.ofValue call.outputPath) output with
    | ok doc => exact isProper_follow stop.machine stop.next (h.set hdoc)
    | error e => exact isProper_fail _

theorem isProper_joined {branches : List Chain} {results : List (Except Failure Document)}
    (each : ∀ c ∈ branches, IsProper c) (hresults : branches.mapM result? = some results)
    {doc : Document} (hdoc : joined results = .ok doc) : doc.IsProper := by
  obtain ⟨docs, hdocs, rfl⟩ := map_eq_ok_iff.1 hdoc
  refine Document.isProper_list fun d hd => ?_
  cases each _ (mem_of_results hresults (mem_of_mapM_ok hdocs hd)) with
  | ended document => exact document d rfl

theorem isProper_move? {branch : String} {move : Move} {d next : Chain} {events : List Event}
    (h : d.IsProper) (hmove : move? knows branch move d = some (next, events)) :
    next.IsProper ∧ ∀ event ∈ events, event.IsProper := by
  unfold move? at hmove
  split at hmove
  case h_1 m doc =>
    cases hmove
    cases h with
    | created document => exact ⟨.ready document, by simp⟩
  case h_2 m name doc =>
    cases h with
    | ready document =>
      split at hmove <;> cases hmove
      · exact ⟨isProper_enterState m name document _, by simp [Event.IsProper]⟩
      · exact ⟨isProper_fail _, by simp⟩
  case h_3 stop seconds =>
    cases hmove
    cases h with
    | waiting document => exact ⟨isProper_follow _ _ document, by simp⟩
  case h_4 stop call =>
    cases hmove
    cases h with
    | working document input => exact ⟨.working document input, by simpa [Event.IsProper]⟩
  case h_5 reply stop call =>
    cases hmove
    cases h with
    | working document input =>
      refine ⟨isProper_take call document reply, ?_⟩
      obtain h | ⟨text, h⟩ := refusal_cases branch call.executor reply <;>
        simp [h, Event.IsProper]
  case h_6 stop branches =>
    obtain ⟨results, hresults, hnext⟩ := Option.map_eq_some_iff.1 hmove
    cases h with
    | forked document each =>
      split at hnext <;> cases hnext
      · rename_i doc hdoc
        exact ⟨isProper_follow _ _ (isProper_joined each hresults hdoc), by simp⟩
      · exact ⟨isProper_fail _, by simp⟩
  case h_7 => cases hmove

theorem isProper_leaving (branch : String) : ∀ event ∈ leaving branch, event.IsProper := by
  unfold leaving
  split_ifs <;> simp [Event.IsProper]

/-- Every move inside a tree keeps its documents proper and calls executors with nothing else. -/
theorem IsProper.stepAt {move : Move} {address : List Nat} {branch : String} {c next : Chain}
    {events : List Event} (h : c.IsProper)
    (made : Chain.stepAt knows move address branch c = some (next, events)) :
    next.IsProper ∧ ∀ event ∈ events, event.IsProper := by
  induction address generalizing branch c next events with
  | nil =>
    obtain ⟨⟨after, seen⟩, hmove, heq⟩ := Option.map_eq_some_iff.1 made
    obtain ⟨hnext, hseen⟩ := isProper_move? h hmove
    cases heq
    refine ⟨hnext, ?_⟩
    split_ifs
    · rw [List.forall_mem_append]
      exact ⟨hseen, isProper_leaving branch⟩
    · exact hseen
  | cons i rest ih =>
    cases h with
    | @forked stop branches document each =>
      simp only [Chain.stepAt, Option.bind_eq_bind, Option.bind_eq_some_iff] at made
      obtain ⟨child, hchild, ⟨after, seen⟩, hafter, hnext⟩ := made
      cases hnext
      obtain ⟨hproper, hseen⟩ := ih (each child (List.mem_of_getElem? hchild)) hafter
      refine ⟨.forked document fun d hd => ?_, hseen⟩
      rcases List.mem_or_eq_of_mem_set hd with hd | rfl
      · exact each d hd
      · exact hproper
    | _ => simp [Chain.stepAt] at made

theorem IsProper.at? {c d : Chain} {address : List Nat} (h : c.IsProper)
    (hat : c.at? address = some d) : d.IsProper := by
  induction address generalizing c with
  | nil =>
    cases hat
    exact h
  | cons i rest ih =>
    cases h with
    | forked document each =>
      obtain ⟨child, hchild, hat⟩ := Option.bind_eq_some_iff.1 hat
      exact ih (each child (List.mem_of_getElem? hchild)) hat
    | _ => cases hat

/-- The output cannot be stored: that its path cannot be written comes first, and then that JSON
cannot tell it. -/
theorem store_of_not_isJson {stop : Stop} {call : Call} {output : Datum} {why : Incompatible}
    (hpath : call.outputPath.IsPath) (h : output.toValue = .error why) :
    ∃ f, store stop call output = .error f ∧
      if (stop.document.set (Datum.ofValue call.outputPath) .null).isOk then
        f = refused call.executor why.fault
      else ∃ text, f = .notFound text := by
  obtain ⟨tokens, htokens⟩ := hpath
  have hparse : Path.parseDatum (Datum.ofValue call.outputPath) = .ok tokens := htokens
  have hset (new : Datum) : stop.document.set (Datum.ofValue call.outputPath) new =
      stop.document.setTokens (Document.pathText (Datum.ofValue call.outputPath)) tokens new := by
    rw [Document.set, hparse]
    rfl
  rw [store, hset, hset, Document.setTokens, Document.setTokens, h]
  cases hwritable : Value.setAt .null tokens stop.document.value with
  | none => exact ⟨_, rfl, _, rfl⟩
  | some w =>
    have hnull : Datum.null.toValue = .ok .null := rfl
    simp only [Option.isNone_some, Bool.false_eq_true, if_false, hnull, hwritable]
    exact ⟨_, rfl, rfl⟩

end Chain

end ReminderFlow
