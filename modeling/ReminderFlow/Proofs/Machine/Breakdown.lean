import ReminderFlow.Machine.Json
import ReminderFlow.Proofs.Datum
import ReminderFlow.Proofs.Json.Proper
import ReminderFlow.Proofs.Machine.Accepted
import ReminderFlow.Proofs.Machine.Validation
import ReminderFlow.Proofs.Run.Fault

namespace ReminderFlow

namespace MachineError

/-- A report is made, unless what it is to show cannot be shown. -/
theorem report?_cases {e : MachineError} {code : String} (h : e.code? = some code) :
    (∃ message, e.report? = some (code, message)) ∨
      e.report? = none ∧ ∃ d, e.shown? = some d ∧ d.describe = .error e.fault := by
  cases hmessage : e.message with
  | ok message =>
    refine .inl ⟨message, ?_⟩
    rw [report?, h, hmessage]
    rfl
  | error fault =>
    obtain ⟨d, hshown, hmute⟩ := Datum.words_eq_error_iff.1 (map_eq_error_iff.1 hmessage)
    have hfault : e.fault = fault := by rw [MachineError.fault, hmessage, Fault.worded]
    refine .inr ⟨?_, d, hshown, hfault ▸ hmute⟩
    rw [report?, h, hmessage]
    rfl

/-- The definition is reported as invalid, unless the report would have to show a whole number that
is too long to be written. -/
def TellsInvalid (e : MachineError) : Prop :=
  (∃ message, e.report? = some ("States.DefinitionInvalid", message)) ∨
    ∃ v, e.shown? = some (.ofValue v) ∧ v.HoldsLong ∧ e.fault = .tooManyDigits

theorem tellsInvalid {e : MachineError} (h : e.code? = some "States.DefinitionInvalid") :
    e.TellsInvalid := by
  rcases report?_cases h with hreport | ⟨-, d, hshown, hmute⟩
  · exact .inl hreport
  · obtain ⟨v, rfl⟩ : ∃ v, d = .ofValue v := by
      cases e <;> simp only [shown?, Option.some.injEq, reduceCtorEq] at hshown
      case path e => cases e <;> simp [code?] at h
      all_goals exact ⟨_, hshown.symm⟩
    obtain ⟨hfault, hlong⟩ := Value.describe_eq_error_iff.1 hmute
    exact .inr ⟨v, hshown, hlong, hfault⟩

end MachineError

/-- Where things are read one after the other, and all of them checked after that, the error is that
of one of them. -/
theorem exists_error_of_each {α β ε : Type} {readAll : List β → Except ε (List α)}
    {read : β → Except ε α} {checkAll : List α → Except ε Unit} {check : α → Except ε Unit}
    (hnil : (readAll [] >>= checkAll) = .ok ())
    (hread : ∀ b rest, readAll (b :: rest) = do
      let a ← read b
      let more ← readAll rest
      pure (a :: more))
    (hcheck : ∀ a rest, checkAll (a :: rest) = do
      check a
      checkAll rest)
    {items : List β} {e : ε} (h : (readAll items >>= checkAll) = .error e) :
    ∃ b ∈ items, (read b >>= check) = .error e := by
  induction items with
  | nil =>
    rw [hnil] at h
    cases h
  | cons b rest ih =>
    rw [List.exists_mem_cons_iff, bind_eq_error_iff]
    rw [hread] at h
    rcases bind_eq_error_iff.1 h with hfail | ⟨all, hall, hfail⟩
    · rcases bind_eq_error_iff.1 hfail with hb | ⟨a, -, hfail⟩
      · exact .inl (.inl hb)
      · rcases bind_eq_error_iff.1 hfail with hrest | ⟨more, -, hpure⟩
        · exact .inr (ih (bind_eq_error_iff.2 (.inl hrest)))
        · cases hpure
    · obtain ⟨a, hb, hall⟩ := bind_eq_ok_iff.1 hall
      obtain ⟨more, hrest, hpure⟩ := bind_eq_ok_iff.1 hall
      cases hpure
      rw [hcheck] at hfail
      rcases bind_eq_error_iff.1 hfail with ha | ⟨-, -, hmore⟩
      · exact .inl (.inr ⟨a, hb, ha⟩)
      · exact .inr (ih (bind_eq_error_iff.2 (.inr ⟨more, hrest, hmore⟩)))

/-- To go through the members for a name is to look it up. -/
theorem scan_eq_lookup {α : Type} {key : String} {g : List (String × Value) → α} {f : Value → α}
    {d : α} (hnil : g [] = d)
    (hcons : ∀ k v rest, g ((k, v) :: rest) = if k = key then f v else g rest)
    (members : List (String × Value)) : g members = ((members.lookup key).map f).getD d := by
  induction members with
  | nil => exact hnil
  | cons p rest ih =>
    obtain ⟨k, v⟩ := p
    rw [hcons]
    by_cases hk : k = key
    · subst hk
      rw [if_pos rfl, List.lookup_cons_self]
      rfl
    · rw [if_neg hk, ih, List.lookup_cons, beq_eq_false_iff_ne.2 (Ne.symm hk)]

/-- A path that cannot be read, and no error code says so: a list or an object, or an index of too
many digits. -/
def PathError.IsRaw : PathError → Prop
  | indexTooLong _ => True
  | unhashable => True
  | _ => False

theorem PathError.isRaw_of_code? {e : PathError} (h : (MachineError.path e).code? = none) :
    e.IsRaw := by
  cases e with
  | unrooted => cases h
  | malformed => cases h
  | _ => trivial

/-- A list or an object. -/
def Value.IsNested : Value → Prop
  | arr _ => True
  | obj _ => True
  | _ => False

/-- What has no items, characters or names to go through. -/
def Value.IsAtom : Value → Prop
  | null => True
  | bool _ => True
  | int _ => True
  | float _ => True
  | _ => False

/-- What the reading of a condition breaks down over. -/
inductive RuleBreaks : List (String × Value) → MachineError → Prop
  | operand {members : List (String × Value)} {key : String} {op : Comparison} {n : Int}
      (named : Comparison.ofName? key = some op)
      (numeric : op ∈ [.numericEquals, .numericLessThan, .numericGreaterThan])
      (here : (key, .int n) ∈ members) (tooLarge : fitsDouble n = false) :
      RuleBreaks members .numberTooLarge
  | variable_ {members : List (String × Value)} {path : Value} {e : PathError}
      (found : members.lookup "Variable" = some path) (bad : Path.parseValue path = .error e)
      (raw : e.IsRaw) : RuleBreaks members (.path e)
  | compound {members inner : List (String × Value)} {key : String} {items : List Value}
      {e : MachineError} (which : key ∈ ["And", "Or"])
      (found : members.lookup key = some (.arr items)) (here : .obj inner ∈ items)
      (breaks : RuleBreaks inner e) : RuleBreaks members e
  | negated {members inner : List (String × Value)} {e : MachineError}
      (found : members.lookup "Not" = some (.obj inner)) (breaks : RuleBreaks inner e) :
      RuleBreaks members e

/-- The members in which a state gives a path. -/
def State.ReadsPath (type key : String) : Prop :=
  (type, key) ∈ [("Wait", "SecondsPath"), ("Task", "InputPath"), ("Task", "OutputPath")]

/-- The members under which a state names a successor. -/
def State.NamesNext (type key : String) : Prop :=
  (type, key) ∈ [("Wait", "Next"), ("Task", "Next"), ("Pass", "Next"), ("Parallel", "Next"),
    ("Choice", "Default")]

/-- What the reading of a state breaks down over, but for its branches. -/
inductive StateBreaks (members : List (String × Value)) : MachineError → Prop
  | seconds {n : Int} (type : memberOrNull members "Type" = .str "Wait")
      (found : members.lookup "Seconds" = some (.int n)) (tooLarge : fitsDouble n = false) :
      StateBreaks members .numberTooLarge
  | path {type key : String} {path : Value} {e : PathError}
      (which : State.ReadsPath type key) (type : memberOrNull members "Type" = .str type)
      (found : members.lookup key = some path)
      (bad : Path.parseValue path = .error e) (raw : e.IsRaw) : StateBreaks members (.path e)
  | successor {type key : String} {target : Value}
      (which : State.NamesNext type key) (type : memberOrNull members "Type" = .str type)
      (found : members.lookup key = some target)
      (nested : target.IsNested) : StateBreaks members .targetNotName
  | rule {rules : List Value} {rule : List (String × Value)} {e : MachineError}
      (type : memberOrNull members "Type" = .str "Choice")
      (found : members.lookup "Choices" = some (.arr rules)) (here : .obj rule ∈ rules)
      (breaks : RuleBreaks (Members.erase "Next" rule) e) : StateBreaks members e
  | branches {v : Value} (type : memberOrNull members "Type" = .str "Parallel")
      (found : members.lookup "Branches" = some v) (atom : v.IsAtom) :
      StateBreaks members .branchesNotList

/-- The members of a state of a machine that is given as a value. -/
def HasState (v : Value) (members : List (String × Value)) : Prop :=
  ∃ machine states name, v = .obj machine ∧ machine.lookup "States" = some (.obj states) ∧
    (name, .obj members) ∈ states

/-- What the reading of a machine breaks down over: one of its states, or a machine in one. -/
inductive Breaks : Value → MachineError → Prop
  | here {v : Value} {members : List (String × Value)} {e : MachineError}
      (state : HasState v members) (breaks : StateBreaks members e) : Breaks v e
  | branch {v b : Value} {members : List (String × Value)} {items : List Value} {e : MachineError}
      (state : HasState v members) (type : memberOrNull members "Type" = .str "Parallel")
      (found : members.lookup "Branches" = some (.arr items)) (inner : b ∈ items)
      (breaks : Breaks b e) : Breaks v e

theorem checkPath_error {v : Value} {e : MachineError} (h : checkPath v = .error e) :
    ∃ pe, e = .path pe ∧ Path.parseValue v = .error pe := by
  unfold checkPath at h
  split at h
  · cases h
  · rename_i pe hpe
    cases h
    exact ⟨pe, rfl, hpe⟩

/-- Only an operand that has to be a number can be one too large. -/
theorem Comparison.accepts_error {op : Comparison} {operand : Value} {fault : DurationFault}
    (h : op.accepts operand = .error fault) :
    ∃ n, op ∈ [numericEquals, numericLessThan, numericGreaterThan] ∧ operand = .int n ∧
      fitsDouble n = false := by
  have hnumber (h : operand.finiteNumber? = .error fault) :
      ∃ n, operand = .int n ∧ fitsDouble n = false := by
    cases operand with
    | int n =>
      rw [Value.finiteNumber?] at h
      split_ifs at h with hfits
      exact ⟨n, rfl, Bool.eq_false_iff.2 hfits⟩
    | _ => cases h
  cases op with
  | numericEquals | numericLessThan | numericGreaterThan =>
    obtain ⟨n, hn, hfits⟩ := hnumber h
    exact ⟨n, by simp, hn, hfits⟩
  | _ => cases h

namespace Condition

theorem listAt_eq (key : String) (members : List (String × Value)) :
    listAt key members = (members.lookup key).map (listOf key) := by
  rw [scan_eq_lookup (g := listAt key) (f := fun v => some (listOf key v)) (by rw [listAt])
    (fun k v rest => by rw [listAt])]
  cases members.lookup key <;> rfl

theorem conditionAt_eq (key : String) (members : List (String × Value)) :
    conditionAt key members = (members.lookup key).map ofJson := by
  rw [scan_eq_lookup (g := conditionAt key) (f := fun v => some (ofJson v)) (by rw [conditionAt])
    (fun k v rest => by rw [conditionAt])]
  cases members.lookup key <;> rfl

/-- What goes wrong when a condition is read and then checked. -/
def Fails (state : String) (read : Except MachineError Condition) (e : MachineError) : Prop :=
  (read >>= fun c => c.check state) = .error e

/-- If a list of conditions fails then one of them does. -/
theorem exists_fails_of_ofItems {state : String} {items : List Value} {e : MachineError}
    (h : (ofItems items >>= checkEach state) = .error e) :
    ∃ v ∈ items, Fails state (ofJson v) e := by
  refine exists_error_of_each ?_ (fun v rest => ?_) (fun c rest => ?_) h
  · rw [ofItems]
    rfl
  · rw [ofItems]
  · rw [checkEach]

/-- A comparison breaks down over a number that is no double, or over its path. -/
theorem breaks_of_comparisonOf {state : String} {members : List (String × Value)} {e : MachineError}
    (h : Fails state (comparisonOf members) e) (hraw : e.code? = none) : RuleBreaks members e := by
  rcases bind_eq_error_iff.1 h with hread | ⟨c, hread, hcheck⟩
  · unfold comparisonOf at hread
    split at hread
    · split at hread <;> cases hread
      cases hraw
    · cases hread
      cases hraw
  · unfold comparisonOf at hread
    split at hread
    case h_2 => cases hread
    case h_1 path hpath =>
      split at hread
      case h_2 => cases hread
      case h_1 op operand hone =>
        cases hread
        have hmem : (op, operand) ∈ members.filterMap fun m =>
            (Comparison.ofName? m.1).map fun op => (op, m.2) := by
          rw [hone]
          exact List.mem_singleton.2 rfl
        obtain ⟨⟨key, v⟩, hhere, hop⟩ := List.mem_filterMap.1 hmem
        obtain ⟨op', hnamed, heq⟩ := Option.map_eq_some_iff.1 hop
        cases heq
        rw [check, checkCompare] at hcheck
        split at hcheck
        case h_1 fault hfault =>
          cases hcheck
          obtain ⟨n, hnumeric, rfl, htooLarge⟩ := Comparison.accepts_error hfault
          exact .operand hnamed hnumeric hhere htooLarge
        case h_2 =>
          cases hcheck
          cases hraw
        case h_3 =>
          obtain ⟨pe, rfl, hbad⟩ := checkPath_error hcheck
          exact .variable_ hpath hbad (PathError.isRaw_of_code? hraw)

/-- A value that fails without a code is an object whose members do so. -/
theorem fails_ofJson {state : String} {v : Value} {e : MachineError} (h : Fails state (ofJson v) e)
    (hraw : e.code? = none) : ∃ inner, v = .obj inner ∧ Fails state (ofMembers inner inner) e := by
  cases v with
  | obj inner =>
    rw [ofJson] at h
    exact ⟨inner, rfl, h⟩
  | _ =>
    simp only [ofJson] at h
    cases h
    cases hraw

/-- If a compound fails without a code then one of its conditions does. -/
theorem exists_fails_of_listOf {state key : String} {v : Value} {make : List Condition → Condition}
    (hmake : make = all ∨ make = any) {e : MachineError}
    (h : Fails state ((listOf key v).map make) e) (hraw : e.code? = none) :
    ∃ items inner, v = .arr items ∧ .obj inner ∈ items ∧ Fails state (ofMembers inner inner) e := by
  have hcompound {conditions : List Condition} (hcheck : (make conditions).check state = .error e) :
      checkEach state conditions = .error e := by
    rcases hmake with rfl | rfl <;>
    · rw [check] at hcheck
      split_ifs at hcheck
      · cases hcheck
        cases hraw
      · exact hcheck
  have hfails : (listOf key v >>= checkEach state) = .error e := by
    rcases bind_eq_error_iff.1 h with hread | ⟨c, hread, hcheck⟩
    · exact bind_eq_error_iff.2 (.inl (map_eq_error_iff.1 hread))
    · obtain ⟨conditions, hlist, rfl⟩ := map_eq_ok_iff.1 hread
      exact bind_eq_error_iff.2 (.inr ⟨conditions, hlist, hcompound hcheck⟩)
  cases v with
  | arr items =>
    rw [listOf] at hfails
    split_ifs at hfails
    · cases hfails
      cases hraw
    · obtain ⟨item, hitem, hfails⟩ := exists_fails_of_ofItems hfails
      obtain ⟨inner, rfl, hinner⟩ := fails_ofJson hfails hraw
      exact ⟨items, inner, rfl, hitem, hinner⟩
  | _ =>
    simp only [listOf] at hfails
    cases hfails
    cases hraw

theorem sizeOf_lt_of_lookup {key : String} {v : Value} {members : List (String × Value)}
    (h : members.lookup key = some v) : sizeOf v < sizeOf members := by
  have hlt := List.sizeOf_lt_of_mem (Members.mem_of_lookup h)
  simp only [Prod.mk.sizeOf_spec] at hlt
  omega

theorem sizeOf_lt_of_item {key : String} {items : List Value} {members inner : List (String × Value)}
    (h : members.lookup key = some (.arr items)) (hinner : .obj inner ∈ items) :
    sizeOf inner < sizeOf members := by
  have hlt := sizeOf_lt_of_lookup h
  have hitem := List.sizeOf_lt_of_mem hinner
  simp only [Value.arr.sizeOf_spec, Value.obj.sizeOf_spec] at hlt hitem
  omega

/-- A condition that fails without a code breaks down over what stands in it. -/
theorem breaks_of_ofMembers {state : String} (members : List (String × Value)) {e : MachineError}
    (h : Fails state (ofMembers members members) e) (hraw : e.code? = none) :
    RuleBreaks members e := by
  rw [ofMembers, listAt_eq, listAt_eq, conditionAt_eq] at h
  cases hand : members.lookup "And" with
  | some v =>
    rw [hand] at h
    obtain ⟨items, inner, rfl, hitem, hfails⟩ := exists_fails_of_listOf (.inl rfl) h hraw
    have hlt := sizeOf_lt_of_item hand hitem
    exact .compound (by simp) hand hitem (breaks_of_ofMembers inner hfails hraw)
  | none =>
    rw [hand] at h
    cases hor : members.lookup "Or" with
    | some v =>
      rw [hor] at h
      obtain ⟨items, inner, rfl, hitem, hfails⟩ := exists_fails_of_listOf (.inr rfl) h hraw
      have hlt := sizeOf_lt_of_item hor hitem
      exact .compound (by simp) hor hitem (breaks_of_ofMembers inner hfails hraw)
    | none =>
      rw [hor] at h
      cases hnot : members.lookup "Not" with
      | some v =>
        rw [hnot] at h
        have hfails : Fails state (ofJson v) e := by
          rcases bind_eq_error_iff.1 h with hread | ⟨c, hread, hcheck⟩
          · exact bind_eq_error_iff.2 (.inl (map_eq_error_iff.1 hread))
          · obtain ⟨negated, hv, rfl⟩ := map_eq_ok_iff.1 hread
            rw [check] at hcheck
            exact bind_eq_error_iff.2 (.inr ⟨negated, hv, hcheck⟩)
        obtain ⟨inner, rfl, hinner⟩ := fails_ofJson hfails hraw
        have hlt : sizeOf inner < sizeOf members := by
          have hobj := sizeOf_lt_of_lookup hnot
          simp only [Value.obj.sizeOf_spec] at hobj
          omega
        exact .negated hnot (breaks_of_ofMembers inner hinner hraw)
      | none =>
        rw [hnot] at h
        exact breaks_of_comparisonOf h hraw
termination_by sizeOf members

end Condition

theorem lookup_of_memberOrNull {members : List (String × Value)} {key : String} {v : Value}
    (h : memberOrNull members key = v) (hv : v ≠ .null) : members.lookup key = some v := by
  unfold memberOrNull at h
  cases hlookup : members.lookup key with
  | none =>
    rw [hlookup] at h
    exact absurd h.symm hv
  | some w =>
    rw [hlookup] at h
    exact congrArg some h

namespace State

theorem checkTargets_error {names : List String} {name : String} {targets : List Value}
    {e : MachineError} (h : checkTargets names name targets = .error e) (hraw : e.code? = none) :
    ∃ target ∈ targets, target.IsNested ∧ e = .targetNotName := by
  induction targets with
  | nil => cases h
  | cons target rest ih =>
    rw [checkTargets] at h
    rcases bind_eq_error_iff.1 h with htarget | ⟨-, -, hrest⟩
    · refine ⟨target, List.mem_cons_self, ?_⟩
      unfold checkTarget at htarget
      split at htarget
      · split_ifs at htarget
        cases htarget
        cases hraw
      · cases htarget
        exact ⟨trivial, rfl⟩
      · cases htarget
        exact ⟨trivial, rfl⟩
      · cases htarget
        cases hraw
    · obtain ⟨other, hother, hnested⟩ := ih hrest
      exact ⟨other, List.mem_cons_of_mem target hother, hnested⟩

theorem breaks_of_target {type key : String} {members : List (String × Value)} {target : Value}
    (which : NamesNext type key) (htype : memberOrNull members "Type" = .str type)
    (htarget : target ∈ someUnlessNull (memberOrNull members key)) (hnested : target.IsNested) :
    StateBreaks members .targetNotName := by
  have heq : memberOrNull members key = target := by
    unfold someUnlessNull at htarget
    split_ifs at htarget
    · cases htarget
    · exact (List.mem_singleton.1 htarget).symm
  refine .successor which htype (lookup_of_memberOrNull heq ?_) hnested
  rintro rfl
  exact hnested

/-- A successor of a state that has at most one breaks the check down only if it is nested. -/
theorem breaks_of_next {names : List String} {name type key : String}
    {members : List (String × Value)} (which : NamesNext type key)
    (htype : memberOrNull members "Type" = .str type) {e : MachineError}
    (h : checkTargets names name (someUnlessNull (memberOrNull members key)) = .error e)
    (hraw : e.code? = none) : StateBreaks members e := by
  obtain ⟨target, htarget, hnested, rfl⟩ := checkTargets_error h hraw
  exact breaks_of_target which htype htarget hnested

/-- The path of a task, or the one that is meant if it gives none. -/
theorem breaks_of_taskPath {members : List (String × Value)} {key : String}
    (which : ReadsPath "Task" key)
    (htype : memberOrNull members "Type" = .str "Task") {e : MachineError}
    (h : checkPath ((members.lookup key).getD (.str "$")) = .error e) (hraw : e.code? = none) :
    StateBreaks members e := by
  obtain ⟨pe, rfl, hbad⟩ := checkPath_error h
  cases hlookup : members.lookup key with
  | some path =>
    rw [hlookup] at hbad
    exact .path which htype hlookup hbad (PathError.isRaw_of_code? hraw)
  | none =>
    rw [hlookup] at hbad
    have hroot : (Path.parse "$").toOption.isSome = true := by decide +kernel
    have hread : Path.parseValue (.str "$") = .ok _ := eq_ok_get hroot
    rw [Option.getD_none, hread] at hbad
    cases hbad

theorem breaks_of_wait {name : String} {members : List (String × Value)} {e : MachineError}
    (htype : memberOrNull members "Type" = .str "Wait")
    (h : checkWait name (memberOrNull members "SecondsPath") (memberOrNull members "Seconds") = .error e)
    (hraw : e.code? = none) : StateBreaks members e := by
  unfold checkWait at h
  split_ifs at h with hboth hpath
  · cases h
    cases hraw
  · obtain ⟨pe, rfl, hbad⟩ := checkPath_error h
    have hnull : memberOrNull members "SecondsPath" ≠ .null := by
      intro hnull
      rw [hnull] at hpath
      cases hpath
    exact .path (by simp [ReadsPath]) htype (lookup_of_memberOrNull rfl hnull) hbad
      (PathError.isRaw_of_code? hraw)
  · split at h
    · cases h
    · rename_i hduration
      cases h
      obtain ⟨n, hn, htooLarge⟩ := Chain.duration?_tooLarge hduration
      exact .seconds htype (lookup_of_memberOrNull hn Value.noConfusion) htooLarge
    · cases h
      cases hraw

def checkIn (names : List String) (name : String) (s : State) : Except MachineError Unit := do
  s.checkFields name
  checkTargets names name s.successors

theorem checkIn_error {names : List String} {name : String} {s : State} {e : MachineError}
    (h : checkIn names name s = .error e) :
    s.checkFields name = .error e ∨ checkTargets names name s.successors = .error e := by
  rcases bind_eq_error_iff.1 h with hfields | ⟨-, -, htargets⟩
  · exact .inl hfields
  · exact .inr htargets

theorem next_of_listOfJson {name : String} {items : List Value} {rules : List Rule}
    (h : Rule.listOfJson name items = .ok rules) : ∀ r ∈ rules, ∃ target, r.next = .str target := by
  induction items generalizing rules with
  | nil =>
    cases h
    simp
  | cons v rest ih =>
    rw [Rule.listOfJson] at h
    obtain ⟨r, hr, h⟩ := bind_eq_ok_iff.1 h
    obtain ⟨more, hmore, h⟩ := bind_eq_ok_iff.1 h
    cases h
    refine List.forall_mem_cons.2 ⟨?_, ih hmore⟩
    unfold Rule.ofJson at hr
    split at hr
    · split at hr
      · obtain ⟨c, -, rfl⟩ := map_eq_ok_iff.1 hr
        exact ⟨_, rfl⟩
      · cases hr
    · cases hr

/-- If the rules of a choice fail without a code then one of them breaks down. -/
theorem breaks_of_rules {name : String} {items : List Value} {e : MachineError}
    (h : (Rule.listOfJson name items >>= checkRules name) = .error e) (hraw : e.code? = none) :
    ∃ rule, .obj rule ∈ items ∧ RuleBreaks (Members.erase "Next" rule) e := by
  have hone : ∃ v ∈ items, (Rule.ofJson name v >>= fun r => r.condition.check name) = .error e :=
    exists_error_of_each rfl (fun _ _ => rfl) (fun _ _ => rfl) h
  obtain ⟨v, hv, hfails⟩ := hone
  unfold Rule.ofJson at hfails
  split at hfails
  case h_2 =>
    cases hfails
    cases hraw
  case h_1 rule =>
    split at hfails
    case h_2 =>
      cases hfails
      cases hraw
    case h_1 target hnext =>
      let rest := Members.erase "Next" rule
      have hcondition : Condition.Fails name (Condition.ofMembers rest rest) e := by
        rcases bind_eq_error_iff.1 hfails with hread | ⟨r, hread, hcheck⟩
        · exact bind_eq_error_iff.2 (.inl (map_eq_error_iff.1 hread))
        · obtain ⟨c, hc, rfl⟩ := map_eq_ok_iff.1 hread
          exact bind_eq_error_iff.2 (.inr ⟨c, hc, hcheck⟩)
      exact ⟨rule, hv, Condition.breaks_of_ofMembers rest hcondition hraw⟩

/-- The successors that rules name are texts, so only the default can break the check down. -/
theorem breaks_of_choice {names : List String} {name : String} {members : List (String × Value)}
    {e : MachineError} (htype : memberOrNull members "Type" = .str "Choice")
    (h : (choiceOfMembers name members >>= checkIn names name) = .error e)
    (hraw : e.code? = none) : StateBreaks members e := by
  unfold choiceOfMembers at h
  split at h
  case h_2 =>
    cases h
    cases hraw
  case h_1 items hitems =>
    have hbreaks (hfails : (Rule.listOfJson name items >>= checkRules name) = .error e) :
        StateBreaks members e := by
      obtain ⟨rule, hrule, hbreaks⟩ := breaks_of_rules hfails hraw
      cases hlookup : members.lookup "Choices" with
      | none =>
        rw [hlookup] at hitems
        cases hitems
        cases hrule
      | some v =>
        rw [hlookup] at hitems
        obtain rfl : v = .arr items := hitems
        exact .rule htype hlookup hrule hbreaks
    rcases bind_eq_error_iff.1 h with hread | ⟨s, hread, hcheck⟩
    · exact hbreaks (bind_eq_error_iff.2 (.inl (map_eq_error_iff.1 hread)))
    · obtain ⟨rules, hrules, rfl⟩ := map_eq_ok_iff.1 hread
      rcases checkIn_error hcheck with hfields | htargets
      · rw [checkFields] at hfields
        split_ifs at hfields
        · cases hfields
          cases hraw
        · cases hfields
          cases hraw
        · exact hbreaks (bind_eq_error_iff.2 (.inr ⟨rules, hrules, hfields⟩))
      · obtain ⟨target, htarget, hnested, rfl⟩ := checkTargets_error htargets hraw
        rcases List.mem_append.1 htarget with hrule | hdefault
        · obtain ⟨r, hr, rfl⟩ := List.mem_map.1 hrule
          obtain ⟨text, htext⟩ := next_of_listOfJson hrules r hr
          rw [htext] at hnested
          exact hnested.elim
        · exact breaks_of_target (by simp [NamesNext]) htype hdefault hnested

theorem breaks_of_task {names : List String} {name : String} {members : List (String × Value)}
    {e : MachineError} (htype : memberOrNull members "Type" = .str "Task")
    (h : (taskOfMembers name members >>= checkIn names name) = .error e)
    (hraw : e.code? = none) : StateBreaks members e := by
  unfold taskOfMembers at h
  split at h
  case h_2 =>
    cases h
    cases hraw
  case h_1 resource hresource =>
    split_ifs at h
    · cases h
      cases hraw
    · rcases checkIn_error h with hfields | htargets
      · rw [checkFields] at hfields
        split_ifs at hfields
        · cases hfields
          cases hraw
        · rcases bind_eq_error_iff.1 hfields with hinput | ⟨-, -, houtput⟩
          · exact breaks_of_taskPath (by simp [ReadsPath]) htype hinput hraw
          · exact breaks_of_taskPath (by simp [ReadsPath]) htype houtput hraw
      · exact breaks_of_next (by simp [NamesNext]) htype htargets hraw

/-- A state without branches that fails without a code breaks down over one of its members. -/
theorem breaks_of_plain {names : List String} {name : String} {members : List (String × Value)}
    {e : MachineError} (h : (plainOfMembers name members >>= checkIn names name) = .error e)
    (hraw : e.code? = none) : StateBreaks members e := by
  simp only [plainOfMembers] at h
  split at h
  case h_1 htype =>
    rcases checkIn_error h with hfields | htargets
    · exact breaks_of_wait htype hfields hraw
    · exact breaks_of_next (by simp [NamesNext]) htype htargets hraw
  case h_2 htype => exact breaks_of_task htype h hraw
  case h_3 htype => exact breaks_of_choice htype h hraw
  case h_4 htype => exact breaks_of_next (by simp [NamesNext]) htype h hraw
  case h_5 => cases h
  case h_6 => cases h
  case h_7 =>
    cases h
    cases hraw

end State

namespace Machine

theorem branchesIn_eq (members : List (String × Value)) :
    branchesIn members = ((members.lookup "Branches").map branchesOf).getD (.ok []) :=
  scan_eq_lookup (by rw [branchesIn]) (fun k v rest => by rw [branchesIn]) members

theorem statesIn_eq (members : List (String × Value)) :
    statesIn members = ((members.lookup "States").map statesOf).getD (.error .noStatesMember) :=
  scan_eq_lookup (by rw [statesIn]) (fun k v rest => by rw [statesIn]) members

/-- If the branches fail without a code then they are no list, or one of them does. -/
theorem exists_error_of_branchesIn {members : List (String × Value)} {e : MachineError}
    (h : branchesIn members = .error e) (hraw : e.code? = none) :
    ∃ v, members.lookup "Branches" = some v ∧ (v.IsAtom ∧ e = .branchesNotList ∨
      ∃ items, v = .arr items ∧ ∃ b ∈ items, ofJson b = .error e) := by
  rw [branchesIn_eq] at h
  cases hlookup : members.lookup "Branches" with
  | none =>
    rw [hlookup] at h
    cases h
  | some v =>
    rw [hlookup] at h
    refine ⟨v, rfl, ?_⟩
    change branchesOf v = .error e at h
    cases v with
    | arr items =>
      rw [branchesOf] at h
      have hall : (machineList items >>= fun _ => .ok ()) = .error e :=
        bind_eq_error_iff.2 (.inl h)
      have hone : ∃ b ∈ items, (ofJson b >>= fun _ => .ok ()) = .error e := by
        refine exists_error_of_each ?_ (fun b rest => ?_) (fun _ _ => rfl) hall
        · rw [machineList]
          rfl
        · rw [machineList]
      obtain ⟨b, hb, hfails⟩ := hone
      rcases bind_eq_error_iff.1 hfails with hfails | ⟨-, -, hpure⟩
      · exact .inr ⟨items, rfl, b, hb, hfails⟩
      · cases hpure
    | str s =>
      rw [branchesOf] at h
      split_ifs at h
      cases h
      cases hraw
    | obj inner =>
      rw [branchesOf] at h
      split_ifs at h
      cases h
      cases hraw
    | _ =>
      simp only [branchesOf] at h
      cases h
      exact .inl ⟨trivial, rfl⟩

/-- What a state breaks down over: one of its own members, or one of the machines in it. -/
theorem breaks_of_stateOf {names : List String} {name : String} {v : Value} {e : MachineError}
    (h : (stateOf name v >>= State.checkIn names name) = .error e) (hraw : e.code? = none) :
    ∃ members, v = .obj members ∧ (StateBreaks members e ∨
      memberOrNull members "Type" = .str "Parallel" ∧
        ∃ items, members.lookup "Branches" = some (.arr items) ∧
          ∃ b ∈ items, ofJson b = .error e) := by
  cases v with
  | obj members =>
    refine ⟨members, rfl, ?_⟩
    rw [stateOf] at h
    split_ifs at h with hparallel
    · have htype : memberOrNull members "Type" = .str "Parallel" := by
        cases hkind : memberOrNull members "Type" <;> rw [hkind] at hparallel <;> cases hparallel
        rfl
      rcases bind_eq_error_iff.1 h with hread | ⟨s, hread, hcheck⟩
      · have hbranches := (bind_eq_error_iff.1 hread).resolve_right (by rintro ⟨-, -, ⟨⟩⟩)
        obtain ⟨v, hv, hatom | hinner⟩ := exists_error_of_branchesIn hbranches hraw
        · obtain ⟨hatom, rfl⟩ := hatom
          exact .inl (.branches htype hv hatom)
        · obtain ⟨items, rfl, hinner⟩ := hinner
          exact .inr ⟨htype, items, hv, hinner⟩
      · obtain ⟨branches, -, hs⟩ := bind_eq_ok_iff.1 hread
        cases hs
        rcases State.checkIn_error hcheck with hfields | htargets
        · rw [State.checkFields] at hfields
          split_ifs at hfields <;> cases hfields <;> cases hraw
        · exact .inl (State.breaks_of_next (by simp [State.NamesNext]) htype htargets hraw)
    · exact .inl (State.breaks_of_plain h hraw)
  | _ =>
    simp only [stateOf] at h
    cases h
    cases hraw

/-- The check of the graph has a code for all that it finds. -/
theorem code?_of_checkGraph {m : Machine} {e : MachineError} (h : m.checkGraph = .error e) :
    e.code? ≠ none := by
  rcases m.checkGraph_cases with ⟨-, hgraph⟩ | ⟨-, -, hgraph⟩ | ⟨-, -, hgraph⟩ <;>
    rw [hgraph] at h <;> cases h <;> simp [MachineError.code?]

/-- If a machine fails without a code then one of its states does. -/
theorem exists_error_of_make? {start comment : String} {states : List (String × Value)}
    {e : MachineError}
    (h : (stateList states >>= fun read => make? start read comment) = .error e)
    (hraw : e.code? = none) :
    ∃ names, ∃ p ∈ states, (stateOf p.1 p.2 >>= State.checkIn names p.1) = .error e := by
  have hchecked : ∃ names, (stateList states >>= checkStates names) = .error e := by
    rcases bind_eq_error_iff.1 h with hread | ⟨read, hread, hmake⟩
    · exact ⟨[], bind_eq_error_iff.2 (.inl hread)⟩
    · have hcheck : (mk start read comment).check = .error e := make?_eq_error_iff.1 hmake
      rw [check] at hcheck
      split_ifs at hcheck
      · cases hcheck
        cases hraw
      · cases hcheck
        cases hraw
      · rcases bind_eq_error_iff.1 hcheck with hstates | ⟨-, -, hgraph⟩
        · exact ⟨_, bind_eq_error_iff.2 (.inr ⟨read, hread, hstates⟩)⟩
        · exact absurd hraw (code?_of_checkGraph hgraph)
  obtain ⟨names, hchecked⟩ := hchecked
  have hone : ∃ p ∈ states, ((stateOf p.1 p.2).map (Prod.mk p.1) >>=
      fun q => State.checkIn names q.1 q.2) = .error e := by
    refine exists_error_of_each ?_ (fun p rest => ?_) (fun q rest => ?_) hchecked
    · rw [stateList]
      rfl
    · rw [stateList]
      cases stateOf p.1 p.2 <;> rfl
    · rw [checkStates, State.checkIn]
      cases q.2.checkFields q.1 <;> rfl
  obtain ⟨p, hp, hfails⟩ := hone
  refine ⟨names, p, hp, ?_⟩
  rcases bind_eq_error_iff.1 hfails with hread | ⟨q, hread, hcheck⟩
  · exact bind_eq_error_iff.2 (.inl (map_eq_error_iff.1 hread))
  · obtain ⟨s, hs, rfl⟩ := map_eq_ok_iff.1 hread
    exact bind_eq_error_iff.2 (.inr ⟨s, hs, hcheck⟩)

/-- If a machine fails without a code then its states are there, and one of them fails so. -/
theorem exists_state_of_ofJson {v : Value} {e : MachineError} (h : ofJson v = .error e)
    (hraw : e.code? = none) :
    ∃ machine states, v = .obj machine ∧ machine.lookup "States" = some (.obj states) ∧
      ∃ names, ∃ p ∈ states, (stateOf p.1 p.2 >>= State.checkIn names p.1) = .error e := by
  cases v with
  | obj machine =>
    rw [ofJson] at h
    split at h
    case h_2 =>
      cases h
      cases hraw
    case h_1 start hstart =>
      rw [statesIn_eq] at h
      cases hlookup : machine.lookup "States" with
      | none =>
        rw [hlookup] at h
        cases h
        cases hraw
      | some w =>
        rw [hlookup] at h
        cases w with
        | obj states =>
          simp only [Option.map_some, Option.getD_some, statesOf] at h
          split_ifs at h
          · cases h
            cases hraw
          · exact ⟨machine, states, rfl, hlookup, exists_error_of_make? h hraw⟩
        | _ =>
          simp only [Option.map_some, Option.getD_some, statesOf] at h
          cases h
          cases hraw
  | _ =>
    simp only [ofJson] at h
    cases h
    cases hraw

/-- A machine that is refused without a code breaks down over one of a few kinds of values. -/
theorem breaks_of_ofJson (v : Value) {e : MachineError} (h : ofJson v = .error e)
    (hraw : e.code? = none) : Breaks v e := by
  obtain ⟨machine, states, hv, hstates, names, ⟨name, w⟩, hmem, hfails⟩ :=
    exists_state_of_ofJson h hraw
  obtain ⟨members, rfl, hself | ⟨htype, items, hitems, b, hb, hinner⟩⟩ :=
    breaks_of_stateOf hfails hraw
  · exact .here ⟨machine, states, name, hv, hstates, hmem⟩ hself
  · have hlt : sizeOf b < sizeOf v := by
      have hitem := List.sizeOf_lt_of_mem hb
      have hbranches := Condition.sizeOf_lt_of_lookup hitems
      have hstate := List.sizeOf_lt_of_mem hmem
      have hall := Condition.sizeOf_lt_of_lookup hstates
      rw [hv]
      simp only [Value.arr.sizeOf_spec, Value.obj.sizeOf_spec, Prod.mk.sizeOf_spec] at *
      omega
    exact .branch ⟨machine, states, name, hv, hstates, hmem⟩ htype hitems hb
      (breaks_of_ofJson b hinner hraw)
termination_by sizeOf v

end Machine

end ReminderFlow
