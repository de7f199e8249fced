import ReminderFlow.Machine.Reminder
import ReminderFlow.Proofs.Machine.Accepted

namespace ReminderFlow

theorem Members.insert_of_lookup_none {α : Type} {key : String} (value : α)
    {members : List (String × α)} (h : members.lookup key = none) :
    insert key value members = members ++ [(key, value)] := by
  induction members with
  | nil => rfl
  | cons p rest ih =>
    obtain ⟨k, v⟩ := p
    have hne : key ≠ k := by
      rintro rfl
      simp at h
    rw [List.lookup_cons, beq_false_of_ne hne] at h
    rw [insert, if_neg hne.symm, ih h]
    rfl

theorem Members.erase_append_of_lookup_none {α : Type} {key : String} (value : α)
    {members : List (String × α)} (h : members.lookup key = none) :
    erase key (members ++ [(key, value)]) = members := by
  have hall : ∀ p ∈ members, p.1 ≠ key := by
    intro p hp heq
    have hne := List.lookup_eq_none_iff.1 h p hp
    simp [heq] at hne
  rw [erase, List.filter_append, List.filter_eq_self.2 (by simpa using hall)]
  simp

namespace Condition

/-- A condition has no member of a rule's own. -/
theorem lookup_next_toMembers (c : Condition) : c.toMembers.lookup "Next" = none := by
  cases c with
  | compare op variable_ operand => cases op <;> rfl
  | _ => rfl

theorem comparisonOf_toMembers (op : Comparison) (s : String) (operand : Value) :
    comparisonOf (compare op (.str s) operand).toMembers = .ok (compare op (.str s) operand) := by
  cases op <;> rfl

theorem listOf_toItems (key : String) {conditions : List Condition} (h : conditions ≠ []) :
    listOf key (.arr (toItems conditions)) = ofItems (toItems conditions) := by
  cases conditions with
  | nil => exact absurd rfl h
  | cons c rest => rw [listOf, toItems, List.isEmpty_cons, if_neg Bool.false_ne_true]

mutual

theorem ofMembers_toMembers : (c : Condition) → c.WellFormed →
    ofMembers c.toMembers c.toMembers = .ok c
  | compare op variable_ operand, h => by
    obtain ⟨-, hpath⟩ := wellFormed_compare_iff.1 h
    obtain ⟨s, rfl⟩ := hpath.exists_str
    rw [← comparisonOf_toMembers op s operand]
    cases op <;> simp [toMembers, ofMembers, listAt, conditionAt, Comparison.name]
  | all conditions, h => by
    obtain ⟨hnonempty, heach⟩ := wellFormed_all_iff.1 h
    have hlist := ofItems_toItems conditions heach
    rw [← listOf_toItems "And" hnonempty] at hlist
    simp [toMembers, ofMembers, listAt, hlist, Except.map]
  | any conditions, h => by
    obtain ⟨hnonempty, heach⟩ := wellFormed_any_iff.1 h
    have hlist := ofItems_toItems conditions heach
    rw [← listOf_toItems "Or" hnonempty] at hlist
    simp [toMembers, ofMembers, listAt, hlist, Except.map]
  | not condition, h => by
    have hinner := ofMembers_toMembers condition (wellFormed_not_iff.1 h)
    simp [toMembers, ofMembers, listAt, conditionAt, ofJson, hinner, Except.map]

theorem ofItems_toItems : (conditions : List Condition) → (∀ c ∈ conditions, c.WellFormed) →
    ofItems (toItems conditions) = .ok conditions
  | [], _ => by rw [toItems, ofItems]
  | c :: rest, h => by
    obtain ⟨hc, hrest⟩ := List.forall_mem_cons.1 h
    rw [toItems, ofItems, ofJson, ofMembers_toMembers c hc, ofItems_toItems rest hrest]
    rfl

end

end Condition

namespace Rule

theorem ofJson_toJson (state : String) {r : Rule} (h : r.condition.WellFormed)
    (hnext : ∃ target, r.next = .str target) : ofJson state r.toJson = .ok r := by
  obtain ⟨target, hnext⟩ := hnext
  have hnone := r.condition.lookup_next_toMembers
  have hlookup : (Members.insert "Next" r.next r.condition.toMembers).lookup "Next" =
      some (.str target) := by
    rw [Members.lookup_insert_self, hnext]
  have herase : Members.erase "Next" (Members.insert "Next" r.next r.condition.toMembers) =
      r.condition.toMembers := by
    rw [Members.insert_of_lookup_none r.next hnone, Members.erase_append_of_lookup_none r.next hnone]
  simp only [toJson, ofJson, hlookup, herase, Condition.ofMembers_toMembers r.condition h]
  rw [← hnext]
  rfl

theorem listOfJson_toJson (state : String) {rules : List Rule}
    (h : ∀ r ∈ rules, r.condition.WellFormed ∧ ∃ target, r.next = .str target) :
    listOfJson state (rules.map toJson) = .ok rules := by
  induction rules with
  | nil => rfl
  | cons r rest ih =>
    obtain ⟨⟨hcondition, hnext⟩, hrest⟩ := List.forall_mem_cons.1 h
    rw [List.map_cons, listOfJson, ofJson_toJson state hcondition hnext, ih hrest]
    rfl

end Rule

namespace State

theorem memberOrNull_cons_self (key : String) (v : Value) (rest : List (String × Value)) :
    memberOrNull ((key, v) :: rest) key = v := by
  simp [memberOrNull]

theorem memberOrNull_cons_of_ne {key other : String} (h : key ≠ other) (v : Value)
    (rest : List (String × Value)) :
    memberOrNull ((other, v) :: rest) key = memberOrNull rest key := by
  rw [memberOrNull, List.lookup_cons, beq_false_of_ne h]
  rfl

theorem memberOrNull_nextOrEnd (next : Value) : memberOrNull (nextOrEnd next) "Next" = next := by
  unfold nextOrEnd
  by_cases h : next.isNull = true
  · rw [if_pos h, Value.isNull_iff.1 h]
    rfl
  · rw [if_neg h]
    rfl

theorem memberOrNull_nextOrEnd_of_ne {key : String} (hnext : key ≠ "Next") (hend : key ≠ "End")
    (next : Value) : memberOrNull (nextOrEnd next) key = .null := by
  unfold nextOrEnd
  split_ifs
  · exact memberOrNull_cons_of_ne hend _ _
  · exact memberOrNull_cons_of_ne hnext _ _

/-- What reading a state needs of it. -/
structure Readable (s : State) : Prop where
  fields : s.WellFormed
  parts : Machine.AcceptedParts s
  targets : ∀ v ∈ s.successors, ∃ target, v = .str target

theorem plainOfMembers_wait (name : String) (rest : List (String × Value)) :
    plainOfMembers name (("Type", .str "Wait") :: rest) =
      .ok (.wait (memberOrNull rest "SecondsPath") (memberOrNull rest "Seconds")
        (memberOrNull rest "Next")) := rfl

theorem plainOfMembers_task (name resource : String) (inputPath outputPath : Value)
    (rest : List (String × Value)) (h : resource ≠ "") :
    plainOfMembers name (("Type", .str "Task") :: ("Resource", .str resource) ::
      ("InputPath", inputPath) :: ("OutputPath", outputPath) :: rest) =
      .ok (.task (.str resource) inputPath outputPath (memberOrNull rest "Next")) := by
  have htask : plainOfMembers name (("Type", .str "Task") :: ("Resource", .str resource) ::
      ("InputPath", inputPath) :: ("OutputPath", outputPath) :: rest) =
      if resource = "" then .error (.noResource name)
      else .ok (.task (.str resource) inputPath outputPath (memberOrNull rest "Next")) := rfl
  rw [htask, if_neg h]

theorem plainOfMembers_choice (name : String) (items : List Value)
    (rest : List (String × Value)) :
    plainOfMembers name (("Type", .str "Choice") :: ("Choices", .arr items) :: rest) =
      (Rule.listOfJson name items).map fun rules =>
        .choice rules (memberOrNull rest "Default") := rfl

theorem plainOfMembers_pass (name : String) (rest : List (String × Value)) :
    plainOfMembers name (("Type", .str "Pass") :: rest) =
      .ok (.pass (memberOrNull rest "Next")) := rfl

/-- A state without branches is read as it was written. -/
theorem plainOfMembers_toMembers (name : String) {s : State} (h : s.Readable)
    (hs : ∀ branches strays next, s ≠ .parallel branches strays next) :
    plainOfMembers name s.toMembers = .ok s := by
  cases s with
  | wait secondsPath seconds next =>
    rw [toMembers, plainOfMembers_wait]
    rcases h.fields with ⟨hne, rfl, -⟩ | ⟨rfl, -, -⟩
    · have hnot : secondsPath.isNull = false := Value.isNull_eq_false_iff.2 hne
      rw [hnot, if_neg Bool.false_ne_true, memberOrNull_cons_self,
        memberOrNull_cons_of_ne (by decide), memberOrNull_cons_of_ne (by decide),
        memberOrNull_nextOrEnd, memberOrNull_nextOrEnd_of_ne (by decide) (by decide)]
    · have hnull : Value.null.isNull = true := rfl
      rw [if_pos hnull, memberOrNull_cons_self, memberOrNull_cons_of_ne (by decide),
        memberOrNull_cons_of_ne (by decide), memberOrNull_nextOrEnd,
        memberOrNull_nextOrEnd_of_ne (by decide) (by decide)]
  | task resource inputPath outputPath next =>
    obtain ⟨text, rfl⟩ := h.parts
    have hne : text ≠ "" := by
      rintro rfl
      exact Bool.false_ne_true h.fields.1
    rw [toMembers, plainOfMembers_task name text inputPath outputPath _ hne, memberOrNull_nextOrEnd]
  | choice rules default =>
    obtain ⟨-, hdefault, hrules⟩ := h.fields
    have hnot : default.isNull = false := Value.isNull_eq_false_iff.2 hdefault
    have hread : Rule.listOfJson name (rules.map Rule.toJson) = .ok rules := by
      apply Rule.listOfJson_toJson
      intro r hr
      exact ⟨hrules r hr, h.targets _ (List.mem_append_left _ (List.mem_map_of_mem hr))⟩
    rw [toMembers, plainOfMembers_choice, hread, hnot, if_neg Bool.false_ne_true,
      Except.map, memberOrNull_cons_self]
  | parallel branches strays next => exact absurd rfl (hs branches strays next)
  | pass next => rw [toMembers, plainOfMembers_pass, memberOrNull_nextOrEnd]
  | fail cause error => rfl
  | succeed => rfl

end State

namespace Machine

theorem readable_of_mem {m : Machine} (h : m.Accepted) {p : String × State} (hp : p ∈ m.states) :
    p.2.Readable := by
  have hlocal := h.locallyWellFormed
  refine ⟨hlocal.fields p hp, h.parts p hp, fun v hv => ?_⟩
  obtain ⟨target, -, rfl⟩ := hlocal.targets p hp v hv
  exact ⟨target, rfl⟩

theorem ofJson_members (start comment : String) (states : Value) :
    ofJson (.obj ((if comment = "" then [] else [("Comment", .str comment)]) ++
      [("StartAt", .str start), ("States", states)])) =
        statesOf states >>= fun read => make? start read comment := by
  by_cases h : comment = ""
  · rw [if_pos h, List.nil_append]
    simp [ofJson, statesIn, commentOf, List.lookup_cons, h]
  · rw [if_neg h]
    simp [ofJson, statesIn, commentOf, List.lookup_cons]

theorem statesOf_stateMembers {states : List (String × State)} (h : states ≠ []) :
    statesOf (.obj (stateMembers states)) = stateList (stateMembers states) := by
  cases states with
  | nil => exact absurd rfl h
  | cons p rest => rw [statesOf, stateMembers, List.isEmpty_cons, if_neg Bool.false_ne_true]

theorem memberOrNull_type (s : State) : memberOrNull s.toMembers "Type" = .str s.type := by
  cases s <;> rw [State.toMembers] <;> exact State.memberOrNull_cons_self _ _ _

/-- A state without branches is read by itself. -/
theorem stateOf_plain (name : String) {s : State} (h : s.Readable)
    (hs : ∀ branches strays next, s ≠ .parallel branches strays next) :
    stateOf name (.obj s.toMembers) = .ok s := by
  have hkind : (memberOrNull s.toMembers "Type").str? ≠ some "Parallel" := by
    rw [memberOrNull_type]
    cases s with
    | parallel branches strays next => exact absurd rfl (hs branches strays next)
    | _ => simp [Value.str?, State.type]
  rw [stateOf, if_neg hkind, State.plainOfMembers_toMembers name h hs]

theorem stateOf_parallel (name : String) (branches : Value) (next : Value) :
    stateOf name (.obj (("Type", .str "Parallel") :: ("Branches", branches) :: nextOrEnd next)) =
      branchesOf branches >>= fun read => pure (.parallel read [] next) := by
  have hnext : memberOrNull (("Type", .str "Parallel") :: ("Branches", branches) ::
      nextOrEnd next) "Next" = next := by
    rw [State.memberOrNull_cons_of_ne (by decide), State.memberOrNull_cons_of_ne (by decide),
      State.memberOrNull_nextOrEnd]
  have hkind : (Value.str "Parallel").str? = some "Parallel" := rfl
  rw [stateOf, State.memberOrNull_cons_self, if_pos hkind, hnext]
  simp [branchesIn]

mutual

/-- A machine is read as it was written. -/
theorem ofJson_toJson : (m : Machine) → m.Accepted → ofJson m.toJson = .ok m
  | .mk start states comment, h => by
    have hread : stateList (stateMembers states) = .ok states :=
      stateList_stateMembers states fun p hp => readable_of_mem h hp
    have hnonempty : states ≠ [] := by
      obtain ⟨p, hp, -⟩ := List.mem_map.1 h.locallyWellFormed.start
      exact List.ne_nil_of_mem hp
    have hmade : make? start states comment = .ok (.mk start states comment) := by
      cases h with
      | intro made => exact made
    rw [toJson, ofJson_members, statesOf_stateMembers hnonempty, hread]
    exact hmade

theorem stateList_stateMembers : (states : List (String × State)) →
    (∀ p ∈ states, p.2.Readable) → stateList (stateMembers states) = .ok states
  | [], _ => by rw [stateMembers, stateList]
  | (name, s) :: rest, h => by
    obtain ⟨hs, hrest⟩ := List.forall_mem_cons.1 h
    rw [stateMembers, stateList, stateOf_toMembers name s hs, stateList_stateMembers rest hrest]
    rfl

theorem stateOf_toMembers (name : String) : (s : State) → s.Readable →
    stateOf name (.obj s.toMembers) = .ok s
  | .parallel branches strays next, h => by
    have hread := machineList_toItems branches h.parts
    obtain ⟨-, rfl⟩ := h.fields
    rw [State.toMembers, stateOf_parallel, branchesOf, hread]
    rfl
  | .wait .., h => stateOf_plain name h (by simp)
  | .task .., h => stateOf_plain name h (by simp)
  | .choice .., h => stateOf_plain name h (by simp)
  | .pass _, h => stateOf_plain name h (by simp)
  | .fail .., h => stateOf_plain name h (by simp)
  | .succeed, h => stateOf_plain name h (by simp)

theorem machineList_toItems : (machines : List Machine) → (∀ m ∈ machines, m.Accepted) →
    machineList (toItems machines) = .ok machines
  | [], _ => by rw [toItems, machineList]
  | m :: rest, h => by
    obtain ⟨hm, hrest⟩ := List.forall_mem_cons.1 h
    rw [toItems, machineList, ofJson_toJson m hm, machineList_toItems rest hrest]
    rfl

end

/-- A machine that has been read, or made out of its parts, is written as what is read as the very
same machine, and so is written as before. -/
theorem round_trip {m : Machine} (h : (∃ v, ofJson v = .ok m) ∨ m.Accepted) :
    ofJson m.toJson = .ok m ∧ (ofJson m.toJson).map toJson = .ok m.toJson := by
  have haccepted : m.Accepted := by
    rcases h with ⟨v, hv⟩ | h
    · exact accepted_of_ofJson v hv
    · exact h
  have hread := ofJson_toJson m haccepted
  refine ⟨hread, ?_⟩
  rw [hread]
  rfl

/-- A condition three levels deep, a task and a machine inside. -/
def errand : Machine :=
  mk "Pick"
    [("Pick", .choice
       [⟨.not (.all [.compare .numericLessThan (.str "$.n") (.int 3),
          .any [.compare .isPresent (.str "$['s'][0]") (.bool true)]]), .str "Ask"⟩]
       (.str "Fork")),
     ("Ask", taskOn "ask" (.str "Fork")),
     ("Fork", .parallel [singleTask "Send" "mail"] [] .null)]
    "On the way"

theorem accepted_errand : errand.Accepted := by
  have hsend : (singleTask "Send" "mail").check = .ok () := eq_ok_of_isSome (by decide +kernel)
  have herrand : errand.check = .ok () := eq_ok_of_isSome (by decide +kernel)
  refine .of_parts herrand fun p hp => ?_
  simp only [errand, states, List.mem_cons, List.not_mem_nil, or_false] at hp
  rcases hp with rfl | rfl | rfl
  · trivial
  · exact ⟨"ask", rfl⟩
  · intro b hb
    obtain rfl := List.mem_singleton.1 hb
    exact accepted_singleTask hsend

theorem round_trip_errand :
    errand.Accepted ∧ ofJson errand.toJson = .ok errand ∧
      (ofJson errand.toJson).map toJson = .ok errand.toJson :=
  ⟨accepted_errand, round_trip (.inr accepted_errand)⟩

end Machine

end ReminderFlow
