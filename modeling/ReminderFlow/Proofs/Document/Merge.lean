import ReminderFlow.Proofs.Datum
import ReminderFlow.Proofs.Document.Lens
import ReminderFlow.Proofs.Run.Proper

namespace ReminderFlow

namespace Members

variable {α : Type} {members more others : List (String × α)}

theorem override_cons (members : List (String × α)) (m : String × α) (rest : List (String × α)) :
    override members (m :: rest) = override (insert m.1 m.2 members) rest := rfl

theorem lookup_of_not_mem {name : String} (h : name ∉ keys members) :
    members.lookup name = none := by
  cases hlookup : members.lookup name with
  | none => rfl
  | some value => exact absurd (mem_keys_iff.2 ⟨value, hlookup⟩) h

/-- What is set is found, and all else as it was. -/
theorem lookup_override (hmore : (keys more).Nodup) (name : String) :
    (override members more).lookup name = (more.lookup name).or (members.lookup name) := by
  induction more generalizing members with
  | nil => rfl
  | cons m rest ih =>
    obtain ⟨hnot, hrest⟩ := List.nodup_cons.1 hmore
    rw [override_cons, ih hrest, List.lookup_cons]
    by_cases hname : name = m.1
    · subst hname
      have hnone : rest.lookup m.1 = none := lookup_of_not_mem hnot
      rw [hnone, lookup_insert_self, beq_self_eq_true]
      rfl
    · rw [lookup_insert_of_ne hname, beq_false_of_ne hname]

/-- The names stay in their places, and those that are new follow in their order. -/
theorem keys_override (hmore : (keys more).Nodup) :
    keys (override members more) =
      keys members ++ (keys more).filter fun name => name ∉ keys members := by
  induction more generalizing members with
  | nil => exact (List.append_nil _).symm
  | cons m rest ih =>
    obtain ⟨hnot, hrest⟩ := List.nodup_cons.1 hmore
    have hcons : keys (m :: rest) = m.1 :: keys rest := rfl
    rw [override_cons, ih hrest, hcons]
    by_cases hmem : m.1 ∈ keys members
    · rw [keys_insert_of_mem m.2 hmem, List.filter_cons_of_neg (by simpa using hmem)]
    · have hkeys : keys (insert m.1 m.2 members) = keys members ++ [m.1] := by
        rw [insert_of_not_mem m.2 hmem]
        exact List.map_append
      have hfilter : ((keys rest).filter fun name => name ∉ keys members ++ [m.1]) =
          (keys rest).filter fun name => name ∉ keys members := by
        apply List.filter_congr
        intro name hname
        have hne : name ≠ m.1 := by
          rintro rfl
          exact hnot hname
        simp [hne]
      rw [hkeys, hfilter, List.filter_cons_of_pos (by simpa using hmem), List.append_assoc]
      rfl

/-- Members with the same distinct names in the same order, and the same values, are the same. -/
theorem eq_of_keys_eq (hmembers : (keys members).Nodup) (hkeys : keys members = keys others)
    (hlookup : ∀ name, members.lookup name = others.lookup name) : members = others := by
  induction members generalizing others with
  | nil =>
    cases others with
    | nil => rfl
    | cons o more => cases hkeys
  | cons m rest ih =>
    cases others with
    | nil => cases hkeys
    | cons o more =>
      obtain ⟨k, v⟩ := m
      obtain ⟨k', v'⟩ := o
      obtain ⟨rfl, htail⟩ := List.cons.inj hkeys
      obtain ⟨hnot, hrest⟩ := List.nodup_cons.1 hmembers
      have hvalue : v = v' := by simpa using hlookup k
      have hthere : k ∉ keys more := by rwa [keys, ← htail]
      have hothers : ∀ name, rest.lookup name = more.lookup name := by
        intro name
        by_cases hname : name = k
        · subst hname
          rw [lookup_of_not_mem hnot, lookup_of_not_mem hthere]
        · have hcons := hlookup name
          rwa [List.lookup_cons, List.lookup_cons, beq_false_of_ne hname] at hcons
      rw [hvalue, ih hrest htail hothers]

/-- To set some members and then others comes to the same as to set the first ones overridden by the
others. -/
theorem override_override (hmembers : (keys members).Nodup) (hmore : (keys more).Nodup)
    (hothers : (keys others).Nodup) :
    override (override members more) others = override members (override more others) := by
  have hboth : (keys (override more others)).Nodup := nodup_override others hmore
  apply eq_of_keys_eq (nodup_override others (nodup_override more hmembers))
  · rw [keys_override hothers, keys_override hmore, keys_override hboth, keys_override hothers,
      List.filter_append, List.filter_filter, List.append_assoc]
    congr 2
    apply List.filter_congr
    intro name hname
    by_cases hm : name ∈ keys members <;> by_cases hn : name ∈ keys more <;> simp [hm, hn]
  · intro name
    rw [lookup_override hothers, lookup_override hmore, lookup_override hboth,
      lookup_override hothers, Option.or_assoc]

/-- To set members a second time changes nothing. -/
theorem override_self (hmembers : (keys members).Nodup) (hmore : (keys more).Nodup) :
    override (override members more) more = override members more := by
  apply eq_of_keys_eq (nodup_override more (nodup_override more hmembers))
  · have hnone : ((keys more).filter fun name => name ∉ keys (override members more)) = [] := by
      rw [List.filter_eq_nil_iff]
      intro name hname
      rw [keys_override hmore]
      by_cases hm : name ∈ keys members <;> simp [hm, hname]
    have hkeys : keys (override (override members more) more) = keys (override members more) ++
        (keys more).filter fun name => name ∉ keys (override members more) := keys_override hmore
    rw [hkeys, hnone, List.append_nil]
  · intro name
    rw [lookup_override hmore, lookup_override hmore, ← Option.or_assoc, Option.or_self]

end Members

/-- A fault of type is raised, unless reading the datum raised another or its key cannot be
shown. -/
def DocumentError.IsTypeFaultOf (d : Datum) (e : DocumentError) : Prop :=
  (∃ message, e.fault = .ofText "TypeError" message) ∨
    ∃ why, d.toValue = .error why ∧ e = .incompatible why ∧ ¬why.Tellable ∧
      (why = .raised e.fault ∨ ∃ k, why = .key k ∧ k.describe = .error e.fault)

theorem DocumentError.isTypeFaultOf_incompatible {d : Datum} {why : Incompatible}
    (h : d.toValue = .error why) : IsTypeFaultOf d (.incompatible why) := by
  by_cases htell : why.Tellable
  · exact .inl htell.fault
  · exact .inr ⟨why, h, rfl, htell, Incompatible.fault_of_not_tellable htell⟩

namespace Document

/-- The document with the members of an object written one after the other, each at the path of its
name; the texts are those of the paths in messages. -/
def setEach (text : String → String) (doc : Document) (others : List (String × Value)) :
    Except DocumentError Document :=
  others.foldlM (fun all m => all.setTokens (text m.1) [.name m.1] (.ofValue m.2)) doc

variable {members others : List (String × Value)}

/-- A member is written at the path of its name. -/
theorem setTokens_name {v : Value} (hv : v.IsProper) (text name : String) :
    (⟨.obj members⟩ : Document).setTokens text [.name name] (.ofValue v) =
      .ok ⟨.obj (Members.insert name v members)⟩ :=
  setTokens_of_setAt (Datum.toValue_ofValue hv) rfl

theorem setEach_eq (text : String → String) (h : ∀ m ∈ others, m.2.IsProper) :
    setEach text ⟨.obj members⟩ others = .ok ⟨.obj (Members.override members others)⟩ := by
  induction others generalizing members with
  | nil => rfl
  | cons m rest ih =>
    obtain ⟨hm, hrest⟩ := List.forall_mem_cons.1 h
    rw [setEach, List.foldlM_cons, setTokens_name hm, Members.override_cons, ← ih hrest]
    rfl

theorem merge_eq {more : Datum} (h : more.toValue = .ok (.obj others)) :
    (⟨.obj members⟩ : Document).merge more = .ok ⟨.obj (Members.override members others)⟩ := by
  simp only [merge, h]

/-- Only a dictionary is told as an object. -/
theorem exists_toValue_obj_iff {more : Datum} :
    (∃ others, more.toValue = .ok (.obj others)) ↔ ∃ entries, more = .dict entries ∧ more.IsJson := by
  constructor
  · rintro ⟨others, h⟩
    have hjson := Datum.isJson_of_toValue more h
    cases more with
    | dict entries => exact ⟨entries, rfl, hjson⟩
    | float x =>
      rw [Datum.toValue] at h
      split_ifs at h
      cases h
    | list items =>
      rw [Datum.toValue] at h
      obtain ⟨values, -, heq⟩ := map_eq_ok_iff.1 h
      cases heq
    | tuple items =>
      rw [Datum.toValue] at h
      obtain ⟨values, -, heq⟩ := map_eq_ok_iff.1 h
      cases heq
    | _ => cases h
  · rintro ⟨entries, rfl, hjson⟩
    obtain ⟨v, hv⟩ := Datum.isJson_iff.1 hjson
    rw [Datum.toValue] at hv
    obtain ⟨members, hmembers, -⟩ := map_eq_ok_iff.1 hv
    exact ⟨Members.ofList members, by rw [Datum.toValue, hmembers]; rfl⟩

/-- What is merged is an object told by a dictionary, and what it is merged into is one; else it is
refused. -/
theorem merge_cases (doc : Document) (more : Datum) :
    ((∃ members, doc.value = .obj members) ∧ ∃ others, more.toValue = .ok (.obj others)) ∨
      (¬((∃ members, doc.value = .obj members) ∧ ∃ others, more.toValue = .ok (.obj others)) ∧
        ∃ e, doc.merge more = .error e ∧ e.IsTypeFaultOf more) := by
  obtain ⟨v⟩ := doc
  cases v with
  | obj members =>
    cases hmore : more.toValue with
    | error why =>
      refine .inr ⟨by simp, .incompatible why, ?_, DocumentError.isTypeFaultOf_incompatible hmore⟩
      simp only [merge, hmore]
    | ok w =>
      cases w with
      | obj others => exact .inl ⟨⟨members, rfl⟩, others, rfl⟩
      | _ =>
        refine .inr ⟨by simp, .notMapping, ?_, .inl ⟨_, rfl⟩⟩
        simp only [merge, hmore]
  | _ => exact .inr ⟨by simp, .notObject, rfl, .inl ⟨_, rfl⟩⟩

variable {doc : Document}

/-- To merge an object comes to the same as to write its members one after the other, each at the
path of its name. The names of the document keep their places and the new ones follow in their
order; a value is that of the object, whole, or else the one that was there. To merge the object
again changes nothing, and to merge another one after it comes to the same as to merge once what the
two come to. It is refused exactly when the document is no object or what is merged no dictionary,
with texts as keys, that JSON can tell: with a fault of type, unless reading what is merged raised
another or its key cannot be shown. -/
theorem merges_as_writes (hdoc : doc.IsProper) :
    (∀ members others more, doc.value = .obj members → more.toValue = .ok (.obj others) →
      ∃ all, doc.merge more = .ok ⟨.obj all⟩ ∧
        (∀ text, doc.setEach text others = .ok ⟨.obj all⟩) ∧
        Members.keys all = Members.keys members ++
          (Members.keys others).filter (fun name => name ∉ Members.keys members) ∧
        (∀ name, all.lookup name = (others.lookup name).or (members.lookup name)) ∧
        (⟨.obj all⟩ : Document).merge more = .ok ⟨.obj all⟩ ∧
        ∀ further last, further.toValue = .ok (.obj last) →
          ∃ both, (⟨.obj others⟩ : Document).merge further = .ok both ∧
            (⟨.obj all⟩ : Document).merge further = doc.merge (.ofValue both.value)) ∧
    ∀ more, ((∃ e, doc.merge more = .error e) ↔
        ¬((∃ members, doc.value = .obj members) ∧ ∃ entries, more = .dict entries ∧ more.IsJson)) ∧
      ∀ e, doc.merge more = .error e → e.IsTypeFaultOf more := by
  constructor
  · intro members others more hvalue hmore
    obtain rfl : doc = ⟨.obj members⟩ := by rw [← hvalue]
    have hothers : (Value.obj others).IsProper := Datum.isProper_of_toValue hmore
    have hmembers : (Members.keys members).Nodup := Value.IsProper.names hdoc
    refine ⟨Members.override members others, merge_eq hmore, fun text => setEach_eq text hothers.member,
      Members.keys_override hothers.names, Members.lookup_override hothers.names, ?_, ?_⟩
    · rw [merge_eq hmore, Members.override_self hmembers hothers.names]
    · intro further last hlast
      have hproper : (Value.obj last).IsProper := Datum.isProper_of_toValue hlast
      refine ⟨⟨.obj (Members.override others last)⟩, merge_eq hlast, ?_⟩
      have hboth : (Value.obj (Members.override others last)).IsProper := by
        refine .obj (Members.nodup_override last hothers.names) fun m hm => ?_
        exact (Members.mem_of_mem_override hm).elim (hothers.member m) (hproper.member m)
      rw [merge_eq hlast, merge_eq (Datum.toValue_ofValue hboth),
        Members.override_override hmembers hothers.names hproper.names]
  · intro more
    rw [← exists_toValue_obj_iff]
    rcases merge_cases doc more with hmerges | ⟨hnot, e, he, hfault⟩
    · obtain ⟨⟨members, hvalue⟩, others, hmore⟩ := hmerges
      have hmerge : doc.merge more = .ok ⟨.obj (Members.override members others)⟩ := by
        obtain rfl : doc = ⟨.obj members⟩ := by rw [← hvalue]
        exact merge_eq hmore
      have hboth : (∃ members, doc.value = .obj members) ∧ ∃ others, more.toValue = .ok (.obj others) :=
        ⟨⟨members, hvalue⟩, others, hmore⟩
      rw [hmerge]
      refine ⟨⟨?_, fun hnot => absurd hboth hnot⟩, ?_⟩
      · rintro ⟨e, he⟩
        cases he
      · intro e he
        cases he
    · refine ⟨⟨fun _ => hnot, fun _ => ⟨e, he⟩⟩, fun e' he' => ?_⟩
      rw [he] at he'
      cases he'
      exact hfault

/-- A document with an object in it, and one that is to take its place. -/
def settings : Document :=
  ⟨.obj [("a", .obj [("x", .int 1), ("y", .int 2)]), ("b", .null)]⟩

theorem merges_as_writes_settings :
    settings.IsProper ∧
      (Datum.dict [(.str "c", .tuple [.int 3]), (.str "a", .dict [(.str "z", .null)])]).toValue =
        .ok (.obj [("c", .arr [.int 3]), ("a", .obj [("z", .null)])]) ∧
      ∃ all, settings.merge (.dict [(.str "c", .tuple [.int 3]), (.str "a", .dict [(.str "z", .null)])]) =
          .ok ⟨.obj all⟩ ∧
        settings.setEach id [("c", .arr [.int 3]), ("a", .obj [("z", .null)])] = .ok ⟨.obj all⟩ ∧
        Members.keys all = ["a", "b", "c"] ∧ all.lookup "a" = some (.obj [("z", .null)]) ∧
        all.lookup "b" = some .null := by
  have hproper : settings.IsProper :=
    isProper_ofDatum (show ofDatum (.ofValue settings.value) = .ok settings from rfl)
  obtain ⟨all, hmerge, heach, hkeys, hlookup, -, -⟩ := (merges_as_writes hproper).1
    [("a", .obj [("x", .int 1), ("y", .int 2)]), ("b", .null)]
    [("c", .arr [.int 3]), ("a", .obj [("z", .null)])]
    (.dict [(.str "c", .tuple [.int 3]), (.str "a", .dict [(.str "z", .null)])]) rfl rfl
  exact ⟨hproper, rfl, all, hmerge, heach id, hkeys, hlookup "a", hlookup "b"⟩

/-- A dictionary with a whole number as a key is no JSON, and yet the fault is not one of type: the
number is too long to be shown. -/
theorem not_always_a_type_fault :
    ∃ e, settings.merge (.dict [(.int (tenTo Text.wholeLimit), .int 1)]) = .error e ∧
      e.fault = .tooManyDigits ∧ e.fault.kind ≠ "TypeError" := by
  have hfault : (DocumentError.incompatible (.key (.int (tenTo Text.wholeLimit)))).fault =
      .tooManyDigits := by
    rw [DocumentError.fault]
    exact Incompatible.fault_key_of_long (Nat.le_of_eq (Int.natAbs_natCast _).symm)
  refine ⟨_, rfl, hfault, ?_⟩
  rw [hfault]
  decide

end Document

end ReminderFlow
