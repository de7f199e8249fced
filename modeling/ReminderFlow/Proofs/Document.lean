import ReminderFlow.Document
import ReminderFlow.Proofs.Json.Proper
import ReminderFlow.Proofs.Machine.WellFormed

namespace ReminderFlow

namespace Datum

mutual

theorem isProper_of_toValue {d : Datum} {v : Value} (h : d.toValue = .ok v) : v.IsProper := by
  cases d with
  | null =>
    cases h
    exact .null
  | bool b =>
    cases h
    exact .bool b
  | int n =>
    cases h
    exact .int n
  | float x =>
    rw [toValue] at h
    split_ifs at h with hx
    cases h
    exact .float hx
  | str s =>
    cases h
    exact .str s
  | list items =>
    rw [toValue] at h
    obtain ⟨values, hvalues, rfl⟩ := map_eq_ok_iff.1 h
    exact .arr (isProper_of_toItems hvalues)
  | tuple items =>
    rw [toValue] at h
    obtain ⟨values, hvalues, rfl⟩ := map_eq_ok_iff.1 h
    exact .arr (isProper_of_toItems hvalues)
  | dict entries =>
    rw [toValue] at h
    obtain ⟨members, hmembers, rfl⟩ := map_eq_ok_iff.1 h
    refine .obj (Members.nodup_ofList members) fun m hm => ?_
    exact isProper_of_toMembers hmembers m ((Members.mem_of_mem_override hm).resolve_left (by simp))
  | foreign thing => cases h

theorem isProper_of_toItems {items : List Datum} {values : List Value}
    (h : toItems items = .ok values) : ∀ v ∈ values, v.IsProper := by
  cases items with
  | nil =>
    cases h
    intro v hv
    cases hv
  | cons d rest =>
    rw [toItems] at h
    obtain ⟨v, hv, h⟩ := bind_eq_ok_iff.1 h
    obtain ⟨more, hmore, h⟩ := bind_eq_ok_iff.1 h
    cases h
    exact List.forall_mem_cons.2 ⟨isProper_of_toValue hv, isProper_of_toItems hmore⟩

theorem isProper_of_toMembers {entries : List (Datum × Datum)} {members : List (String × Value)}
    (h : toMembers entries = .ok members) : ∀ m ∈ members, m.2.IsProper := by
  cases entries with
  | nil =>
    cases h
    intro m hm
    cases hm
  | cons entry rest =>
    obtain ⟨k, d⟩ := entry
    cases k with
    | str name =>
      rw [toMembers] at h
      obtain ⟨v, hv, h⟩ := bind_eq_ok_iff.1 h
      obtain ⟨more, hmore, h⟩ := bind_eq_ok_iff.1 h
      cases h
      exact List.forall_mem_cons.2 ⟨isProper_of_toValue hv, isProper_of_toMembers hmore⟩
    | _ => cases h

end

theorem toItems_ofItems {items : List Value} (h : ∀ v ∈ items, (ofValue v).toValue = .ok v) :
    toItems (ofItems items) = .ok items := by
  induction items with
  | nil => rfl
  | cons v rest ih =>
    obtain ⟨hv, hrest⟩ := List.forall_mem_cons.1 h
    rw [ofItems, toItems, hv, ih hrest]
    rfl

theorem toMembers_ofMembers {members : List (String × Value)}
    (h : ∀ m ∈ members, (ofValue m.2).toValue = .ok m.2) :
    toMembers (ofMembers members) = .ok members := by
  induction members with
  | nil => rfl
  | cons m rest ih =>
    obtain ⟨k, v⟩ := m
    obtain ⟨hv, hrest⟩ := List.forall_mem_cons.1 h
    rw [ofMembers, toMembers, hv, ih hrest]
    rfl

/-- A document takes a proper value as it is. -/
theorem toValue_ofValue {v : Value} (h : v.IsProper) : (ofValue v).toValue = .ok v := by
  induction h with
  | float finite => rw [ofValue, toValue, if_pos finite]
  | arr each ih =>
    rw [ofValue, toValue, toItems_ofItems ih]
    rfl
  | obj names each ih =>
    rw [ofValue, toValue, toMembers_ofMembers ih, Except.map, Members.ofList_of_nodup names]
  | _ => rfl

end Datum

namespace Value

theorem IsProper.item {items : List Value} (h : (Value.arr items).IsProper) :
    ∀ v ∈ items, v.IsProper := by
  cases h with
  | arr each => exact each

theorem IsProper.member {members : List (String × Value)} (h : (Value.obj members).IsProper) :
    ∀ m ∈ members, m.2.IsProper := by
  cases h with
  | obj names each => exact each

theorem IsProper.names {members : List (String × Value)} (h : (Value.obj members).IsProper) :
    (Members.keys members).Nodup := by
  cases h with
  | obj names each => exact names

theorem isProper_insert {members : List (String × Value)} (h : (Value.obj members).IsProper)
    (name : String) {v : Value} (hv : v.IsProper) :
    (Value.obj (Members.insert name v members)).IsProper := by
  cases h with
  | obj names each =>
    refine .obj (Members.nodup_insert name v names) fun m hm => ?_
    rcases Members.mem_of_mem_insert hm with rfl | hm
    · exact hv
    · exact each m hm

/-- The member or the empty object in its place. -/
theorem isProper_lookup {members : List (String × Value)} (h : (Value.obj members).IsProper)
    (name : String) : ((members.lookup name).getD (.obj [])).IsProper := by
  cases hlookup : members.lookup name with
  | none => exact .obj List.nodup_nil (by simp)
  | some v => exact h.member _ (Members.mem_of_lookup hlookup)

theorem IsProper.setAt {new v w : Value} {path : List Token} (hv : v.IsProper)
    (hnew : new.IsProper) (h : Value.setAt new path v = some w) : w.IsProper := by
  fun_induction Value.setAt new path v generalizing w with
  | case1 =>
    cases h
    exact hnew
  | case2 n rest items child hchild ih =>
    obtain ⟨changed, hset, rfl⟩ := Option.map_eq_some_iff.1 h
    have hitem := hv.item child (List.mem_of_getElem? hchild)
    refine .arr fun v hv' => ?_
    rcases List.mem_or_eq_of_mem_set hv' with hv' | rfl
    · exact hv.item v hv'
    · exact ih hitem hset
  | case3 n rest items hnone => cases h
  | case4 name rest members ih =>
    obtain ⟨changed, hset, rfl⟩ := Option.map_eq_some_iff.1 h
    exact isProper_insert hv name (ih (isProper_lookup hv name) hset)
  | case5 => cases h

theorem IsProper.step {v w : Value} {t : Token} (hv : v.IsProper) (h : v.step? t = some w) :
    w.IsProper := by
  unfold Value.step? at h
  split at h
  · exact hv.item w (List.mem_of_getElem? h)
  · exact hv.member _ (Members.mem_of_lookup h)
  · cases h

theorem IsProper.getAt {v w : Value} {path : List Token} (hv : v.IsProper)
    (h : v.getAt path = some w) : w.IsProper := by
  induction path generalizing v with
  | nil =>
    cases h
    exact hv
  | cons t rest ih =>
    obtain ⟨child, hchild, h⟩ := Option.bind_eq_some_iff.1 h
    exact ih (hv.step hchild) h

end Value

namespace Document

section

variable {text : String} {path : List Token}

theorem get_eq (h : Path.parse text = .ok path) (doc : Document) :
    doc.get (.str text) = doc.getTokens text path := by
  simp only [get, Path.parseDatum, h]
  rfl

theorem contains_eq (h : Path.parse text = .ok path) (doc : Document) :
    doc.contains (.str text) = .ok (doc.value.getAt path).isSome := by
  simp only [contains, Path.parseDatum, h]
  rfl

theorem set_eq (h : Path.parse text = .ok path) (doc : Document) (new : Datum) :
    doc.set (.str text) new = doc.setTokens text path new := by
  simp only [set, Path.parseDatum, h]
  rfl

theorem set_eq_error {e : PathError} (h : Path.parse text = .error e) (doc : Document) (new : Datum) :
    doc.set (.str text) new = .error (.path e) := by
  simp only [set, Path.parseDatum, h]
  rfl

end

def IsProper (doc : Document) : Prop := doc.value.IsProper

theorem isProper_ofDatum {d : Datum} {doc : Document} (h : ofDatum d = .ok doc) : doc.IsProper := by
  obtain ⟨v, hv, rfl⟩ := map_eq_ok_iff.1 h
  exact Datum.isProper_of_toValue hv

theorem IsProper.set {doc changed : Document} {path new : Datum} (hdoc : doc.IsProper)
    (h : doc.set path new = .ok changed) : changed.IsProper := by
  obtain ⟨tokens, -, h⟩ := bind_eq_ok_iff.1 h
  unfold setTokens at h
  split_ifs at h
  split at h
  · cases h
  · rename_i v hv
    split at h
    · rename_i w hw
      cases h
      exact Value.IsProper.setAt hdoc (Datum.isProper_of_toValue hv) hw
    · cases h

theorem IsProper.get {doc : Document} {path : Datum} {v : Value} (h : doc.IsProper)
    (hget : doc.get path = .ok v) : v.IsProper := by
  obtain ⟨tokens, -, hget⟩ := bind_eq_ok_iff.1 hget
  unfold getTokens at hget
  split at hget
  · rename_i w hw
    cases hget
    exact Value.IsProper.getAt h hw
  · cases hget

/-- A list of documents is one again. -/
theorem isProper_list {docs : List Document} (h : ∀ doc ∈ docs, doc.IsProper) :
    IsProper ⟨.arr (docs.map Document.value)⟩ := by
  refine .arr fun v hv => ?_
  obtain ⟨doc, hdoc, rfl⟩ := List.mem_map.1 hv
  exact h doc hdoc

end Document

end ReminderFlow
