import ReminderFlow.Proofs.Datum
import ReminderFlow.Proofs.Document.Frame
import ReminderFlow.Proofs.Machine.Breakdown

namespace ReminderFlow

namespace Comparison

theorem name_of_ofName? {s : String} {op : Comparison} (h : ofName? s = some op) : op.name = s := by
  have hfound := List.find?_some h
  simpa using hfound

end Comparison

namespace Condition

/-- The keys under which other conditions stand, in the order in which they are looked for. -/
def compoundKeys : List String := ["And", "Or", "Not"]

def operatorKeys : List String := compoundKeys ++ Comparison.all.map Comparison.name

/-- The operators among the members, compounds first. -/
def operatorsIn (members : List (String × Value)) : List String :=
  operatorKeys.filter fun key => (members.lookup key).isSome

/-- The compound that is read, with its operand. -/
def compound? (members : List (String × Value)) : Option (String × Value) :=
  compoundKeys.findSome? fun key => (members.lookup key).map fun v => (key, v)

/-- Paths to the conditions inside of a condition. -/
inductive IsLevel : List Token → Prop
  | top : IsLevel []
  | item {key : String} {i : Nat} {rest : List Token} (which : key ∈ ["And", "Or"])
      (inner : IsLevel rest) : IsLevel (.name key :: .index i :: rest)
  | negated {rest : List Token} (inner : IsLevel rest) : IsLevel (.name "Not" :: rest)

/-- The members of a condition, which is the one given or stands somewhere in it. -/
def HasLevel (v : Value) (path : List Token) (members : List (String × Value)) : Prop :=
  IsLevel path ∧ v.getAt path = some (.obj members)

/-- Each condition has one operator. -/
def HasOneOperator (v : Value) : Prop :=
  ∀ path members, HasLevel v path members → ∃ key, operatorsIn members = [key]

/-- Where a condition has a compound it has no other operator. -/
def CompoundsAlone (v : Value) : Prop :=
  ∀ path members, HasLevel v path members → ∀ key ∈ compoundKeys, key ∈ operatorsIn members →
    operatorsIn members = [key]

/-- The same operand, but for the conditions in it. -/
inductive SameOperand : String → Value → Value → Prop
  | list {key : String} {items others : List Value} (which : key ∈ ["And", "Or"])
      (length : others.length = items.length) : SameOperand key (.arr items) (.arr others)
  | condition {members others : List (String × Value)} : SameOperand "Not" (.obj members) (.obj others)
  | comparison (op : Comparison) (operand : Value) : SameOperand op.name operand operand

/-- Every operator and every operand of one condition is there in the other one, at the same
place. -/
def Keeps (v w : Value) : Prop :=
  ∀ path members, HasLevel v path members → ∃ others, w.getAt path = some (.obj others) ∧
    ∀ key ∈ operatorKeys, ∀ operand, members.lookup key = some operand →
      ∃ operand', others.lookup key = some operand' ∧ SameOperand key operand operand'

/-- The comparisons among the members, with their operands. -/
def comparisonsIn (members : List (String × Value)) : List (Comparison × Value) :=
  members.filterMap fun m => (Comparison.ofName? m.1).map fun op => (op, m.2)

theorem mem_comparisonsIn_of_lookup {members : List (String × Value)} {op : Comparison} {v : Value}
    (h : members.lookup op.name = some v) : (op, v) ∈ comparisonsIn members :=
  List.mem_filterMap.2 ⟨_, Members.mem_of_lookup h, by rw [Comparison.ofName?_name]; rfl⟩

theorem isSome_lookup_of_mem {members : List (String × Value)} {op : Comparison} {v : Value}
    (h : (op, v) ∈ comparisonsIn members) : (members.lookup op.name).isSome = true := by
  obtain ⟨⟨key, w⟩, hmem, hop⟩ := List.mem_filterMap.1 h
  obtain ⟨op', hname, heq⟩ := Option.map_eq_some_iff.1 hop
  obtain ⟨rfl, rfl⟩ := Prod.mk.inj heq
  rw [Comparison.name_of_ofName? hname]
  by_contra hnone
  rw [Bool.not_eq_true, Option.isSome_eq_false_iff, Option.isNone_iff_eq_none,
    List.lookup_eq_none_iff] at hnone
  simpa using hnone _ hmem

theorem mem_operatorsIn {members : List (String × Value)} {key : String} :
    key ∈ operatorsIn members ↔ key ∈ operatorKeys ∧ (members.lookup key).isSome = true :=
  List.mem_filter

theorem compound?_eq_none_iff {members : List (String × Value)} :
    compound? members = none ↔ ∀ key ∈ compoundKeys, members.lookup key = none := by
  simp [compound?, List.findSome?_eq_none_iff]

/-- Without a compound, the operators are the comparisons. -/
theorem operatorsIn_of_comparison {members : List (String × Value)} {op : Comparison} {v : Value}
    (hnone : compound? members = none) (hone : comparisonsIn members = [(op, v)]) :
    operatorsIn members = [op.name] ∧ members.lookup op.name = some v := by
  have hthere : (op, v) ∈ comparisonsIn members := by simp [hone]
  have honly {op' : Comparison} {w : Value} (h : members.lookup op'.name = some w) :
      op' = op ∧ w = v := by
    have hmem := mem_comparisonsIn_of_lookup h
    rw [hone, List.mem_singleton] at hmem
    exact Prod.mk.inj hmem
  obtain ⟨w, hw⟩ := Option.isSome_iff_exists.1 (isSome_lookup_of_mem hthere)
  obtain ⟨-, rfl⟩ := honly hw
  refine ⟨?_, hw⟩
  have hcompounds : compoundKeys.filter (fun key => (members.lookup key).isSome) = [] := by
    rw [List.filter_eq_nil_iff]
    intro key hkey
    simp [compound?_eq_none_iff.1 hnone key hkey]
  have hcomparisons : (Comparison.all.map Comparison.name).filter
      (fun key => (members.lookup key).isSome) =
        (Comparison.all.map Comparison.name).filter fun key => key = op.name := by
    refine List.filter_congr fun key hkey => ?_
    obtain ⟨op', -, rfl⟩ := List.mem_map.1 hkey
    by_cases heq : op' = op
    · simp [heq, hw]
    · have hnot : members.lookup op'.name = none := by
        rw [← Option.not_isSome_iff_eq_none, Option.isSome_iff_exists]
        rintro ⟨w, hw'⟩
        exact heq (honly hw').1
      have hname : op'.name ≠ op.name := fun h => by
        rw [h, hw] at hnot
        cases hnot
      simp [hnot, hname]
  rw [operatorsIn, operatorKeys, List.filter_append, hcompounds, hcomparisons]
  cases op <;> decide

/-- To read a list of conditions is to read each. -/
theorem ofItems_eq_ok_iff {items : List Value} {conditions : List Condition} :
    ofItems items = .ok conditions ↔ List.Forall₂ (fun v c => ofJson v = .ok c) items conditions := by
  induction items generalizing conditions with
  | nil => cases conditions <;> simp [ofItems]
  | cons v rest ih =>
    rw [ofItems, bind_eq_ok_iff]
    simp only [bind_eq_ok_iff]
    constructor
    · rintro ⟨c, hc, more, hmore, hpure⟩
      cases hpure
      exact .cons hc (ih.1 hmore)
    · intro h
      cases h with
      | cons hc hmore => exact ⟨_, hc, _, ih.2 hmore, rfl⟩

/-- The condition comes of the members: of their first compound, or of their one comparison. -/
inductive Decodes (members : List (String × Value)) : Condition → Prop
  | all {items : List Value} {conditions : List Condition}
      (found : members.lookup "And" = some (.arr items))
      (each : List.Forall₂ (fun v c => ofJson v = .ok c) items conditions) :
      Decodes members (.all conditions)
  | any {items : List Value} {conditions : List Condition}
      (found : members.lookup "Or" = some (.arr items))
      (each : List.Forall₂ (fun v c => ofJson v = .ok c) items conditions) :
      Decodes members (.any conditions)
  | not {v : Value} {c : Condition} (found : members.lookup "Not" = some v)
      (inner : ofJson v = .ok c) : Decodes members (.not c)
  | compare {op : Comparison} {s : String} {v : Value} (alone : compound? members = none)
      (variable_ : members.lookup "Variable" = some (.str s))
      (one : comparisonsIn members = [(op, v)]) : Decodes members (.compare op (.str s) v)

theorem exists_items_of_listOf {key : String} {v : Value} {conditions : List Condition}
    (h : listOf key v = .ok conditions) :
    ∃ items, v = .arr items ∧ List.Forall₂ (fun v c => ofJson v = .ok c) items conditions := by
  cases v with
  | arr items =>
    rw [listOf] at h
    split_ifs at h
    exact ⟨items, rfl, ofItems_eq_ok_iff.1 h⟩
  | _ => simp [listOf] at h

/-- The first compound that is there, with what is before it not there. -/
theorem compound?_cases {members : List (String × Value)} {key : String} {v : Value}
    (h : compound? members = some (key, v)) :
    (key = "And" ∧ members.lookup "And" = some v) ∨
      (key = "Or" ∧ members.lookup "And" = none ∧ members.lookup "Or" = some v) ∨
      (key = "Not" ∧ members.lookup "And" = none ∧ members.lookup "Or" = none ∧
        members.lookup "Not" = some v) := by
  cases hand : members.lookup "And" with
  | some w =>
    simp only [compound?, compoundKeys, List.findSome?_cons, hand, Option.map_some, Option.some.injEq,
      Prod.mk.injEq] at h
    exact .inl ⟨h.1.symm, by rw [h.2]⟩
  | none =>
    cases hor : members.lookup "Or" with
    | some w =>
      simp only [compound?, compoundKeys, List.findSome?_cons, hand, hor, Option.map_some,
        Option.map_none, Option.some.injEq, Prod.mk.injEq] at h
      exact .inr (.inl ⟨h.1.symm, rfl, by rw [h.2]⟩)
    | none =>
      cases hnot : members.lookup "Not" with
      | some w =>
        simp only [compound?, compoundKeys, List.findSome?_cons, hand, hor, hnot, Option.map_some,
          Option.map_none, Option.some.injEq, Prod.mk.injEq] at h
        exact .inr (.inr ⟨h.1.symm, rfl, rfl, by rw [h.2]⟩)
      | none => simp [compound?, compoundKeys, hand, hor, hnot] at h

/-- A compound is read whatever stands beside it. -/
theorem ofMembers_of_compound {members : List (String × Value)} {key : String} {v : Value}
    (h : compound? members = some (key, v)) (whole : List (String × Value)) :
    ofMembers whole members = ofMembers [(key, v)] [(key, v)] := by
  simp only [ofMembers, listAt_eq, conditionAt_eq]
  rcases compound?_cases h with ⟨rfl, hand⟩ | ⟨rfl, hand, hor⟩ | ⟨rfl, hand, hor, hnot⟩
  · simp [hand]
  · simp [hand, hor, List.lookup_cons]
  · simp [hand, hor, hnot, List.lookup_cons]

theorem ofMembers_of_no_compound {members : List (String × Value)} (h : compound? members = none)
    (whole : List (String × Value)) : ofMembers whole members = comparisonOf whole := by
  rw [compound?_eq_none_iff] at h
  rw [ofMembers, listAt_eq, listAt_eq, conditionAt_eq, h "And" (by decide), h "Or" (by decide),
    h "Not" (by decide)]
  rfl

theorem decodes_of_ofMembers {members : List (String × Value)} {c : Condition}
    (h : ofMembers members members = .ok c) : Decodes members c := by
  cases hcompound : compound? members with
  | none =>
    rw [ofMembers_of_no_compound hcompound, comparisonOf] at h
    split at h
    case h_2 => cases h
    case h_1 s hs =>
      split at h
      case h_2 => cases h
      case h_1 op operand hone =>
        cases h
        exact .compare hcompound hs hone
  | some p =>
    obtain ⟨key, v⟩ := p
    have hread := h
    simp only [ofMembers, listAt_eq, conditionAt_eq] at hread
    rcases compound?_cases hcompound with ⟨-, hand⟩ | ⟨-, hand, hor⟩ | ⟨-, hand, hor, hnot⟩
    · rw [hand] at hread
      obtain ⟨conditions, hlist, rfl⟩ := map_eq_ok_iff.1 hread
      obtain ⟨items, rfl, heach⟩ := exists_items_of_listOf hlist
      exact .all hand heach
    · rw [hand, hor] at hread
      obtain ⟨conditions, hlist, rfl⟩ := map_eq_ok_iff.1 hread
      obtain ⟨items, rfl, heach⟩ := exists_items_of_listOf hlist
      exact .any hor heach
    · rw [hand, hor, hnot] at hread
      obtain ⟨inner, hinner, rfl⟩ := map_eq_ok_iff.1 hread
      exact .not hnot hinner

theorem exists_members_of_ofJson {v : Value} {c : Condition} (h : ofJson v = .ok c) :
    ∃ members, v = .obj members ∧ Decodes members c := by
  cases v with
  | obj members =>
    rw [ofJson] at h
    exact ⟨members, rfl, decodes_of_ofMembers h⟩
  | _ => simp [ofJson] at h

theorem toItems_eq_map (conditions : List Condition) : toItems conditions = conditions.map toJson := by
  induction conditions with
  | nil => rw [toItems, List.map_nil]
  | cons c rest ih => rw [toItems, ih, List.map_cons, toJson]

theorem step?_name {v child : Value} {key : String} (h : v.step? (.name key) = some child) :
    ∃ members, v = .obj members ∧ members.lookup key = some child := by
  cases v with
  | obj members => exact ⟨members, rfl, h⟩
  | _ => cases h

theorem step?_index {v child : Value} {i : Nat} (h : v.step? (.index i) = some child) :
    ∃ items, v = .arr items ∧ items[i]? = some child := by
  cases v with
  | arr items => exact ⟨items, rfl, h⟩
  | _ => cases h

/-- What stands at a place behind an item of a compound. -/
theorem getAt_item {v w : Value} {key : String} {i : Nat} {rest : List Token}
    (h : v.getAt (.name key :: .index i :: rest) = some w) :
    ∃ members items child, v = .obj members ∧ members.lookup key = some (.arr items) ∧
      items[i]? = some child ∧ child.getAt rest = some w := by
  obtain ⟨list, hlist, hinner⟩ := Option.bind_eq_some_iff.1 h
  obtain ⟨child, hchild, hat⟩ := Option.bind_eq_some_iff.1 hinner
  obtain ⟨members, rfl, hlookup⟩ := step?_name hlist
  obtain ⟨items, rfl, hitem⟩ := step?_index hchild
  exact ⟨members, items, child, rfl, hlookup, hitem, hat⟩

theorem getAt_member {v w : Value} {key : String} {rest : List Token}
    (h : v.getAt (.name key :: rest) = some w) :
    ∃ members child, v = .obj members ∧ members.lookup key = some child ∧
      child.getAt rest = some w := by
  obtain ⟨child, hchild, hat⟩ := Option.bind_eq_some_iff.1 h
  obtain ⟨members, rfl, hlookup⟩ := step?_name hchild
  exact ⟨members, child, rfl, hlookup, hat⟩

/-- What holds of every condition inside of a value holds of those inside of a condition in it. -/
theorem CompoundsAlone.inner {v w : Value} (h : CompoundsAlone v) {before : List Token}
    (hw : v.getAt before = some w) (hlevel : ∀ path, IsLevel path → IsLevel (before ++ path)) :
    CompoundsAlone w := by
  rintro path members ⟨hpath, hat⟩
  refine h (before ++ path) members ⟨hlevel path hpath, ?_⟩
  rw [Value.getAt_append, hw]
  exact hat

theorem operatorsIn_toMembers (c : Condition) : ∃ key, operatorsIn c.toMembers = [key] := by
  cases c with
  | compare op variable_ operand =>
    rw [toMembers]
    cases op <;> exact ⟨_, rfl⟩
  | all conditions =>
    rw [toMembers]
    exact ⟨"And", rfl⟩
  | any conditions =>
    rw [toMembers]
    exact ⟨"Or", rfl⟩
  | not c =>
    rw [toMembers]
    exact ⟨"Not", rfl⟩

/-- Where a written condition has a compound, other written conditions stand in it. -/
theorem lookup_toMembers {c : Condition} {key : String} {v : Value} (hkey : key ∈ compoundKeys)
    (h : c.toMembers.lookup key = some v) :
    (key ∈ ["And", "Or"] ∧ ∃ conditions : List Condition, v = .arr (conditions.map toJson)) ∨
      key = "Not" ∧ ∃ inner : Condition, v = inner.toJson := by
  have hkeys : key = "And" ∨ key = "Or" ∨ key = "Not" := by simpa [compoundKeys] using hkey
  cases c with
  | compare op variable_ operand =>
    rw [toMembers] at h
    rcases hkeys with rfl | rfl | rfl <;> cases op <;> cases h
  | all conditions =>
    rw [toMembers, toItems_eq_map] at h
    rcases hkeys with rfl | rfl | rfl <;> cases h
    exact .inl ⟨by simp, conditions, rfl⟩
  | any conditions =>
    rw [toMembers, toItems_eq_map] at h
    rcases hkeys with rfl | rfl | rfl <;> cases h
    exact .inl ⟨by simp, conditions, rfl⟩
  | not c =>
    rw [toMembers] at h
    rcases hkeys with rfl | rfl | rfl <;> cases h
    exact .inr ⟨rfl, c, rfl⟩

theorem hasOneOperator_toJson (c : Condition) : HasOneOperator c.toJson := by
  rintro path members ⟨hpath, hat⟩
  induction hpath generalizing c with
  | top =>
    cases hat
    exact c.operatorsIn_toMembers
  | @item key i rest which inner ih =>
    obtain ⟨outer, items, child, houter, hlookup, hitem, hat⟩ := getAt_item hat
    cases houter
    have hkey : key ∈ compoundKeys := by
      rcases List.mem_pair.1 which with rfl | rfl <;> simp [compoundKeys]
    rcases lookup_toMembers hkey hlookup with ⟨-, conditions, heq⟩ | ⟨rfl, -⟩
    · cases heq
      rw [List.getElem?_map] at hitem
      obtain ⟨c, -, rfl⟩ := Option.map_eq_some_iff.1 hitem
      exact ih c hat
    · simp at which
  | negated inner ih =>
    obtain ⟨outer, child, houter, hlookup, hat⟩ := getAt_member hat
    cases houter
    rcases lookup_toMembers (by simp [compoundKeys]) hlookup with ⟨hkey, -⟩ | ⟨-, c, rfl⟩
    · simp at hkey
    · exact ih c hat

theorem mem_operatorsIn_of_compound {members : List (String × Value)} {key : String} {v : Value}
    (hkey : key ∈ compoundKeys) (hv : members.lookup key = some v) : key ∈ operatorsIn members :=
  mem_operatorsIn.2 ⟨List.mem_append_left _ hkey, by rw [hv]; rfl⟩

theorem CompoundsAlone.here {members : List (String × Value)} {key : String} {v : Value}
    (h : CompoundsAlone (.obj members)) (hkey : key ∈ compoundKeys)
    (hv : members.lookup key = some v) : operatorsIn members = [key] :=
  h [] members ⟨.top, rfl⟩ key hkey (mem_operatorsIn_of_compound hkey hv)

/-- There is no second compound. -/
theorem CompoundsAlone.unique {members : List (String × Value)} {key other : String} {v w : Value}
    (h : CompoundsAlone (.obj members)) (hkey : key ∈ compoundKeys)
    (hv : members.lookup key = some v) (hother : other ∈ compoundKeys)
    (hw : members.lookup other = some w) : key = other := by
  have hmem := mem_operatorsIn_of_compound hkey hv
  rw [h.here hother hw] at hmem
  exact List.mem_singleton.1 hmem

/-- The conditions of a compound are read, and written where they stood. -/
theorem Decodes.items {members : List (String × Value)} {c : Condition} (h : Decodes members c)
    (alone : CompoundsAlone (.obj members)) {key : String} (which : key ∈ ["And", "Or"])
    {items : List Value} (found : members.lookup key = some (.arr items)) :
    ∃ conditions : List Condition,
      c.toMembers.lookup key = some (.arr (conditions.map toJson)) ∧
        List.Forall₂ (fun v c => ofJson v = .ok c) items conditions := by
  have hkey : key ∈ compoundKeys := by
    rcases List.mem_pair.1 which with rfl | rfl <;> simp [compoundKeys]
  cases h with
  | @all items' conditions found' each =>
    obtain rfl := alone.unique (by simp [compoundKeys]) found' hkey found
    cases found.symm.trans found'
    exact ⟨conditions, by rw [toMembers, toItems_eq_map]; rfl, each⟩
  | @any items' conditions found' each =>
    obtain rfl := alone.unique (by simp [compoundKeys]) found' hkey found
    cases found.symm.trans found'
    exact ⟨conditions, by rw [toMembers, toItems_eq_map]; rfl, each⟩
  | not found' inner =>
    obtain rfl := alone.unique (by simp [compoundKeys]) found' hkey found
    simp at which
  | compare hnone variable_ one =>
    rw [compound?_eq_none_iff.1 hnone key hkey] at found
    cases found

theorem Decodes.negated {members : List (String × Value)} {c : Condition} (h : Decodes members c)
    (alone : CompoundsAlone (.obj members)) {v : Value} (found : members.lookup "Not" = some v) :
    ∃ inner, c = .not inner ∧ ofJson v = .ok inner := by
  have hkey : "Not" ∈ compoundKeys := by simp [compoundKeys]
  cases h with
  | all found' each => simpa using alone.unique (by simp [compoundKeys]) found' hkey found
  | any found' each => simpa using alone.unique (by simp [compoundKeys]) found' hkey found
  | @not v' c found' inner =>
    cases found.symm.trans found'
    exact ⟨c, rfl, inner⟩
  | compare hnone variable_ one =>
    rw [compound?_eq_none_iff.1 hnone "Not" hkey] at found
    cases found

/-- The operators of the outermost condition. -/
theorem Decodes.operators {members : List (String × Value)} {c : Condition} (h : Decodes members c)
    (alone : CompoundsAlone (.obj members)) :
    ∃ key, operatorsIn members = [key] ∧ ∀ operand, members.lookup key = some operand →
      ∃ operand', c.toMembers.lookup key = some operand' ∧ SameOperand key operand operand' := by
  have hlist {key : String} {items : List Value} (which : key ∈ ["And", "Or"])
      (found : members.lookup key = some (.arr items)) (operand : Value)
      (hoperand : members.lookup key = some operand) :
      ∃ operand', c.toMembers.lookup key = some operand' ∧ SameOperand key operand operand' := by
    obtain rfl := Option.some.inj (found.symm.trans hoperand)
    obtain ⟨conditions, hlookup, heach⟩ := h.items alone which found
    exact ⟨_, hlookup, .list which (by rw [List.length_map, heach.length_eq])⟩
  cases h with
  | all found each => exact ⟨"And", alone.here (by simp [compoundKeys]) found, hlist (by simp) found⟩
  | any found each => exact ⟨"Or", alone.here (by simp [compoundKeys]) found, hlist (by simp) found⟩
  | @not v c found inner =>
    refine ⟨"Not", alone.here (by simp [compoundKeys]) found, fun operand hoperand => ?_⟩
    obtain rfl := Option.some.inj (found.symm.trans hoperand)
    obtain ⟨members', rfl, -⟩ := exists_members_of_ofJson inner
    exact ⟨.obj c.toMembers, by rw [toMembers]; rfl, .condition⟩
  | @compare op s v hnone variable_ one =>
    obtain ⟨hops, hlookup⟩ := operatorsIn_of_comparison hnone one
    refine ⟨op.name, hops, fun operand hoperand => ?_⟩
    obtain rfl := Option.some.inj (hlookup.symm.trans hoperand)
    refine ⟨v, ?_, .comparison op v⟩
    rw [toMembers]
    cases op <;> rfl

/-- Where every compound stands alone, what is read has every operator that was given. -/
theorem kept_of_compoundsAlone {v : Value} {c : Condition} (h : ofJson v = .ok c)
    (alone : CompoundsAlone v) {path : List Token} {members : List (String × Value)}
    (hlevel : HasLevel v path members) :
    ∃ key, operatorsIn members = [key] ∧ ∃ others, c.toJson.getAt path = some (.obj others) ∧
      ∀ operand, members.lookup key = some operand →
        ∃ operand', others.lookup key = some operand' ∧ SameOperand key operand operand' := by
  obtain ⟨hpath, hat⟩ := hlevel
  induction hpath generalizing v c with
  | top =>
    cases hat
    obtain ⟨members, heq, hdecodes⟩ := exists_members_of_ofJson h
    cases heq
    obtain ⟨key, hops, hkept⟩ := hdecodes.operators alone
    exact ⟨key, hops, c.toMembers, rfl, hkept⟩
  | @item key i rest which inner ih =>
    obtain ⟨outer, items, child, rfl, hlookup, hitem, hinner⟩ := getAt_item hat
    obtain ⟨outer', heq, hdecodes⟩ := exists_members_of_ofJson h
    cases heq
    obtain ⟨conditions, hwritten, heach⟩ := hdecodes.items alone which hlookup
    obtain ⟨hi, rfl⟩ := List.getElem?_eq_some_iff.1 hitem
    have hi' : i < conditions.length := heach.length_eq ▸ hi
    have hread : ofJson items[i] = .ok conditions[i] := heach.get hi hi'
    have hchild : (Value.obj outer).getAt [.name key, .index i] = some items[i] := by
      simp [Value.getAt, Value.step?, hlookup, hi]
    have hsame : c.toJson.getAt (.name key :: .index i :: rest) = conditions[i].toJson.getAt rest := by
      simp [toJson, Value.getAt, Value.step?, hwritten, hi']
    rw [hsame]
    exact ih hread (alone.inner hchild fun path hpath => .item which hpath) hinner
  | @negated rest inner ih =>
    obtain ⟨outer, child, rfl, hlookup, hinner⟩ := getAt_member hat
    obtain ⟨outer', heq, hdecodes⟩ := exists_members_of_ofJson h
    cases heq
    obtain ⟨c, rfl, hread⟩ := hdecodes.negated alone hlookup
    have hchild : (Value.obj outer).getAt [.name "Not"] = some child := by
      simp [Value.getAt, Value.step?, hlookup]
    have hsame : (Condition.not c).toJson.getAt (.name "Not" :: rest) = c.toJson.getAt rest := by
      simp [toJson, toMembers, Value.getAt, Value.step?]
    rw [hsame]
    exact ih hread (alone.inner hchild fun path hpath => .negated hpath) hinner

/-- A list of conditions cannot be read if one of them cannot. -/
theorem exists_item_of_ofItems {items : List Value} {e : MachineError}
    (h : ofItems items = .error e) : ∃ v ∈ items, ofJson v = .error e := by
  induction items with
  | nil => simp [ofItems] at h
  | cons v rest ih =>
    rw [List.exists_mem_cons_iff]
    rw [ofItems] at h
    rcases bind_eq_error_iff.1 h with hv | ⟨c, -, h⟩
    · exact .inl hv
    · rcases bind_eq_error_iff.1 h with hrest | ⟨more, -, hpure⟩
      · exact .inr (ih hrest)
      · cases hpure

theorem listOf_error {key : String} {v : Value} {e : MachineError} (h : listOf key v = .error e) :
    e = .emptyRuleList key ∨ ∃ items, v = .arr items ∧ ∃ item ∈ items, ofJson item = .error e := by
  cases v with
  | arr items =>
    rw [listOf] at h
    split_ifs at h
    · exact .inl (Except.error.inj h).symm
    · exact .inr ⟨items, rfl, exists_item_of_ofItems h⟩
  | _ =>
    simp only [listOf] at h
    exact .inl (Except.error.inj h).symm

/-- What is wrong with a condition is wrong with one in it, or has the code of an invalid
definition. -/
theorem ofMembers_error {members : List (String × Value)} {e : MachineError}
    (h : ofMembers members members = .error e) :
    e.code? = some "States.DefinitionInvalid" ∨
      ∃ v, sizeOf v < sizeOf members ∧ ofJson v = .error e := by
  have hlist {key : String} {w : Value} {make : List Condition → Condition}
      (hw : members.lookup key = some w) (hread : (listOf key w).map make = .error e) :
      e.code? = some "States.DefinitionInvalid" ∨
        ∃ v, sizeOf v < sizeOf members ∧ ofJson v = .error e := by
    rcases listOf_error (map_eq_error_iff.1 hread) with rfl | ⟨items, rfl, item, hitem, hread⟩
    · exact .inl rfl
    · have hlt := sizeOf_lt_of_lookup hw
      have hlt' := List.sizeOf_lt_of_mem hitem
      rw [Value.arr.sizeOf_spec] at hlt
      exact .inr ⟨item, by omega, hread⟩
  cases hcompound : compound? members with
  | none =>
    rw [ofMembers_of_no_compound hcompound, comparisonOf] at h
    split at h
    · split at h <;> cases h
      exact .inl rfl
    · cases h
      exact .inl rfl
  | some p =>
    simp only [ofMembers, listAt_eq, conditionAt_eq] at h
    rcases compound?_cases hcompound with ⟨-, hand⟩ | ⟨-, hand, hor⟩ | ⟨-, hand, hor, hnot⟩
    · rw [hand] at h
      exact hlist hand h
    · rw [hand, hor] at h
      exact hlist hor h
    · rw [hand, hor, hnot] at h
      exact .inr ⟨p.2, sizeOf_lt_of_lookup hnot, map_eq_error_iff.1 h⟩

/-- Whatever cannot be read as a condition is an invalid definition. -/
theorem code?_of_ofJson (v : Value) {e : MachineError} (h : ofJson v = .error e) :
    e.code? = some "States.DefinitionInvalid" := by
  cases hv : v with
  | obj members =>
    rw [hv, ofJson] at h
    rcases ofMembers_error h with hcode | ⟨w, hlt, hw⟩
    · exact hcode
    · have hsize : sizeOf w < sizeOf v := by
        rw [hv, Value.obj.sizeOf_spec]
        omega
      exact code?_of_ofJson w hw
  | _ =>
    rw [hv] at h
    simp only [ofJson] at h
    cases h
    rfl
termination_by sizeOf v

theorem nodup_operatorsIn (members : List (String × Value)) : (operatorsIn members).Nodup := by
  have hkeys : operatorKeys.Nodup := by decide
  exact hkeys.filter _

theorem eq_singleton_of_forall {keys : List String} {key : String} (hnodup : keys.Nodup)
    (hmem : key ∈ keys) (hall : ∀ other ∈ keys, other = key) : keys = [key] := by
  have hreplicate := List.eq_replicate_of_mem hall
  rw [hreplicate, List.nodup_replicate] at hnodup
  have hpos := List.length_pos_of_mem hmem
  rw [hreplicate, show keys.length = 1 by omega]
  rfl

/-- What is kept is one operator for each condition. -/
theorem compoundsAlone_of_keeps {v : Value} {c : Condition} (h : Keeps v c.toJson) :
    CompoundsAlone v := by
  intro path members hlevel key hkey hmem
  obtain ⟨others, hothers, hkept⟩ := h path members hlevel
  obtain ⟨one, hone⟩ := hasOneOperator_toJson c path others ⟨hlevel.1, hothers⟩
  have hall (other : String) (hother : other ∈ operatorsIn members) : other = one := by
    obtain ⟨hkeys, hsome⟩ := mem_operatorsIn.1 hother
    obtain ⟨operand, hoperand⟩ := Option.isSome_iff_exists.1 hsome
    obtain ⟨operand', hoperand', -⟩ := hkept other hkeys operand hoperand
    have hthere : other ∈ operatorsIn others := mem_operatorsIn.2 ⟨hkeys, by rw [hoperand']; rfl⟩
    rw [hone] at hthere
    exact List.mem_singleton.1 hthere
  refine eq_singleton_of_forall (nodup_operatorsIn members) hmem fun other hother => ?_
  rw [hall other hother, hall key hmem]

theorem keeps_of_alone {v : Value} {c : Condition} (h : ofJson v = .ok c) (alone : CompoundsAlone v) :
    Keeps v c.toJson := by
  intro path members hlevel
  obtain ⟨key, hone, others, hothers, hkept⟩ := kept_of_compoundsAlone h alone hlevel
  refine ⟨others, hothers, fun key' hkeys operand hoperand => ?_⟩
  have hmem : key' ∈ operatorsIn members := mem_operatorsIn.2 ⟨hkeys, by rw [hoperand]; rfl⟩
  rw [hone] at hmem
  obtain rfl := List.mem_singleton.1 hmem
  exact hkept operand hoperand

/-- Where no compound is there, and not exactly one comparison, nothing can be read. -/
theorem ofJson_of_count {members : List (String × Value)} (hnone : compound? members = none)
    (hcount : ∀ key, operatorsIn members ≠ [key]) :
    ∃ e, ofJson (.obj members) = .error e ∧
      ((∃ s, members.lookup "Variable" = some (.str s)) → e = .operatorCount members) ∧
      ((∀ s, members.lookup "Variable" ≠ some (.str s)) → e = .ruleWithoutVariable members) := by
  rw [ofJson, ofMembers_of_no_compound hnone, comparisonOf]
  split
  case h_1 s hs =>
    split
    case h_1 op operand hone => exact absurd (operatorsIn_of_comparison hnone hone).1 (hcount _)
    case h_2 => exact ⟨_, rfl, fun _ => rfl, fun hnot => absurd hs (hnot s)⟩
  case h_2 hnot => exact ⟨_, rfl, fun htext => (htext.elim hnot).elim, fun _ => rfl⟩

/-- What is read of a condition has each operator and operand that was given, at every depth, if and
only if no compound stands beside another operator; and then each condition has exactly one
operator, and is refused if it has not: as an invalid definition, unless the report would have to
show a whole number that is too long. A compound that does not stand alone is read as if it did. -/
theorem reads_operators (v : Value) :
    (∀ c, ofJson v = .ok c →
      (CompoundsAlone v ↔ HasOneOperator v) ∧ (CompoundsAlone v ↔ Keeps v c.toJson)) ∧
    (CompoundsAlone v → ∀ path members, HasLevel v path members →
      (∀ key, operatorsIn members ≠ [key]) →
        ∃ e, ofJson v = .error e ∧ e.TellsInvalid) ∧
    ∀ members, v = .obj members →
      (∀ key operand, compound? members = some (key, operand) →
        ofJson v = ofJson (.obj [(key, operand)])) ∧
      (compound? members = none → (∀ key, operatorsIn members ≠ [key]) →
        ∃ e, ofJson v = .error e ∧ e.TellsInvalid ∧
          ((∃ s, members.lookup "Variable" = some (.str s)) → e = .operatorCount members) ∧
          ((∀ s, members.lookup "Variable" ≠ some (.str s)) → e = .ruleWithoutVariable members)) := by
  refine ⟨fun c h => ⟨⟨fun alone path members hlevel => ?_,
      fun hone path members hlevel key _ hmem => ?_⟩,
    keeps_of_alone h, compoundsAlone_of_keeps⟩, fun alone path members hlevel hcount => ?_, ?_⟩
  · obtain ⟨key, hkey, -⟩ := kept_of_compoundsAlone h alone hlevel
    exact ⟨key, hkey⟩
  · obtain ⟨one, heq⟩ := hone path members hlevel
    rw [heq] at hmem ⊢
    rw [List.mem_singleton.1 hmem]
  · cases hread : ofJson v with
    | error e => exact ⟨e, rfl, MachineError.tellsInvalid (code?_of_ofJson v hread)⟩
    | ok c =>
      obtain ⟨key, hkey, -⟩ := kept_of_compoundsAlone hread alone hlevel
      exact absurd hkey (hcount key)
  · rintro members rfl
    refine ⟨fun key operand hcompound => ?_, fun hnone hcount => ?_⟩
    · rw [ofJson, ofJson, ofMembers_of_compound hcompound]
    · obtain ⟨e, hread, htext, hnot⟩ := ofJson_of_count hnone hcount
      exact ⟨e, hread, MachineError.tellsInvalid (code?_of_ofJson _ hread), htext, hnot⟩

def layered : Value :=
  .obj [("Or", .arr
    [.obj [("Not", .obj [("Variable", .str "$.a"), ("IsPresent", .bool true)])],
      .obj [("Variable", .str "$.n"), ("NumericLessThan", .int 3)]])]

theorem reads_operators_layered :
    ∃ c, ofJson layered = .ok c ∧ HasOneOperator layered ∧ Keeps layered c.toJson := by
  let c : Condition := .any [.not (.compare .isPresent (.str "$.a") (.bool true)),
    .compare .numericLessThan (.str "$.n") (.int 3)]
  have hread : ofJson layered = .ok c := by
    simp [layered, c, ofJson, ofMembers, listAt, conditionAt, listOf, ofItems, comparisonOf, Except.map,
      Comparison.ofName?, Comparison.all, Comparison.name, bind, Except.bind, pure, Except.pure]
  have hone : HasOneOperator layered := hasOneOperator_toJson c
  obtain ⟨halone, hkeeps⟩ := (reads_operators layered).1 c hread
  exact ⟨c, hread, hone, hkeeps.1 (halone.2 hone)⟩

/-- Members of which an `And` is read, and two comparisons are not. -/
def crowded : List (String × Value) :=
  [("And", .arr [.obj [("Variable", .str "$.a"), ("IsPresent", .bool true)]]),
    ("Variable", .str "$.x"), ("StringEquals", .str "a"), ("NumericEquals", .int 1)]

theorem not_always_one_operator :
    ∃ c, ofJson (.obj crowded) = .ok c ∧
      operatorsIn crowded = ["And", "StringEquals", "NumericEquals"] ∧
      ¬HasOneOperator (.obj crowded) ∧ ¬Keeps (.obj crowded) c.toJson := by
  have hread : ofJson (.obj crowded) = .ok (.all [.compare .isPresent (.str "$.a") (.bool true)]) := by
    simp [crowded, ofJson, ofMembers, listAt, conditionAt, listOf, ofItems, comparisonOf, Except.map,
      Comparison.ofName?, Comparison.all, Comparison.name, bind, Except.bind, pure, Except.pure]
  have hthree : operatorsIn crowded = ["And", "StringEquals", "NumericEquals"] := by decide +kernel
  have hnot : ¬HasOneOperator (.obj crowded) := by
    intro hone
    obtain ⟨key, heq⟩ := hone [] crowded ⟨.top, rfl⟩
    rw [hthree] at heq
    cases heq
  refine ⟨_, hread, hthree, hnot, fun hkeeps => ?_⟩
  have heq := compoundsAlone_of_keeps hkeeps [] crowded ⟨.top, rfl⟩ "And" (by decide)
    (by rw [hthree]; decide)
  rw [hthree] at heq
  cases heq

end Condition

end ReminderFlow
