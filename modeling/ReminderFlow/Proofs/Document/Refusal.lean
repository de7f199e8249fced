import Mathlib.Order.Bounds.Basic
import ReminderFlow.Proofs.Datum
import ReminderFlow.Proofs.Document.Frame
import ReminderFlow.Proofs.Path
import ReminderFlow.Proofs.Run.Proper

namespace ReminderFlow

namespace Value

/-- Of the beginnings of a path that lead somewhere there is a longest one, and no step is possible
from where it leads. -/
theorem exists_longest (v : Value) (path : List Token) :
    ∃ k last, IsGreatest {n | n ≤ path.length ∧ (v.getAt (path.take n)).isSome = true} k ∧
      v.getAt (path.take k) = some last ∧ ∀ t rest, path.drop k = t :: rest → last.step? t = none := by
  induction path generalizing v with
  | nil =>
    refine ⟨0, v, ⟨⟨Nat.le_refl 0, rfl⟩, fun n hn => hn.1⟩, rfl, fun t rest h => ?_⟩
    cases h
  | cons t rest ih =>
    cases hstep : v.step? t with
    | none =>
      refine ⟨0, v, ⟨⟨Nat.zero_le _, rfl⟩, fun n hn => ?_⟩, rfl, fun t' rest' h => ?_⟩
      · cases n with
        | zero => exact Nat.le_refl 0
        | succ m =>
          have hsome := hn.2
          rw [List.take_succ_cons, getAt, hstep] at hsome
          cases hsome
      · have hhead : t = t' := (List.cons.inj h).1
        rw [← hhead, hstep]
    | some child =>
      obtain ⟨k, last, ⟨⟨hk, hfound⟩, hgreatest⟩, hlast, hstuck⟩ := ih child
      have hread : ∀ n, v.getAt ((t :: rest).take (n + 1)) = child.getAt (rest.take n) := by
        intro n
        rw [List.take_succ_cons, getAt_cons hstep]
      refine ⟨k + 1, last, ⟨⟨Nat.succ_le_succ hk, ?_⟩, fun n hn => ?_⟩, ?_, hstuck⟩
      · rw [hread, hfound]
      · cases n with
        | zero => exact Nat.zero_le _
        | succ m =>
          have hm : m ≤ k := hgreatest ⟨Nat.le_of_succ_le_succ hn.1, hread m ▸ hn.2⟩
          exact Nat.succ_le_succ hm
      · rw [hread, hlast]

/-- A write behind a place that is found is a write in what is found there. -/
theorem setAt_append {new v last : Value} {before : List Token} (h : v.getAt before = some last)
    (after : List Token) :
    setAt new (before ++ after) v =
      (setAt new after last).bind fun changed => setAt changed before v := by
  induction before generalizing v with
  | nil =>
    cases h
    simp [setAt]
  | cons t rest ih =>
    obtain ⟨child, hchild, hlast⟩ := Option.bind_eq_some_iff.1 h
    have hrest := ih hlast
    cases t with
    | index n =>
      cases v with
      | arr items =>
        have hitem : items[n]? = some child := hchild
        simp only [List.cons_append, setAt, hitem, hrest, Option.map_bind, Function.comp_def]
      | _ => cases hchild
    | name name =>
      cases v with
      | obj members =>
        have hmember : members.lookup name = some child := hchild
        simp only [List.cons_append, setAt, hmember, Option.getD_some, hrest, Option.map_bind,
          Function.comp_def]
      | _ => cases hchild

/-- A place that is found can be written. -/
theorem exists_setAt_of_getAt {v last : Value} {path : List Token} (h : v.getAt path = some last)
    (new : Value) : ∃ w, setAt new path v = some w := by
  have hway := isNone_setAt_eq new last v path
  rw [setAt_of_getAt h] at hway
  exact Option.isSome_iff_exists.1 (by simpa using hway)

/-- Objects of one member each, one in the other, down to a value. -/
def nest (names : List String) (v : Value) : Value :=
  names.foldr (fun name inner => obj [(name, inner)]) v

/-- In an empty object everything has to be made. -/
theorem setAt_empty (new : Value) (names : List String) :
    setAt new (names.map Token.name) (obj []) = some (nest names new) := by
  induction names with
  | nil => rfl
  | cons name rest ih =>
    simp only [List.map_cons, setAt, List.lookup_nil, Option.getD_none, ih, Option.map_some,
      Members.insert]
    rfl

/-- No item is made. -/
theorem setAt_empty_of_index (new : Value) {path : List Token} {n : Nat} (h : .index n ∈ path) :
    setAt new path (obj []) = none := by
  induction path with
  | nil => cases h
  | cons t rest ih =>
    cases t with
    | index m => rfl
    | name name =>
      have hrest : .index n ∈ rest := by simpa using h
      simp only [setAt, List.lookup_nil, Option.getD_none, ih hrest, Option.map_none]

theorem exists_names_or_index (path : List Token) :
    (∃ names : List String, path = names.map Token.name) ∨ ∃ n, .index n ∈ path := by
  induction path with
  | nil => exact .inl ⟨[], rfl⟩
  | cons t rest ih =>
    cases t with
    | index n => exact .inr ⟨n, List.mem_cons_self⟩
    | name name =>
      rcases ih with ⟨names, hnames⟩ | ⟨n, hn⟩
      · exact .inl ⟨name :: names, by rw [hnames, List.map_cons]⟩
      · exact .inr ⟨n, List.mem_cons_of_mem _ hn⟩

/-- Something is left of a path, and it cannot be made in a value: the value is no object, or an
item would have to be made. -/
def Refuses (last : Value) (rest : List Token) : Prop :=
  rest ≠ [] ∧ ((∀ members, last ≠ obj members) ∨ ∃ n, .index n ∈ rest)

/-- Where no step is possible, the rest of the path is made in an object, or refused. -/
theorem setAt_of_stuck {last : Value} {t : Token} (h : last.step? t = none) (rest : List Token)
    (new : Value) :
    (∃ members name names, last = obj members ∧ t :: rest = .name name :: names.map Token.name ∧
      setAt new (t :: rest) last = some (obj (members ++ [(name, nest names new)])) ∧
      ¬Refuses last (t :: rest)) ∨
    (setAt new (t :: rest) last = none ∧ Refuses last (t :: rest)) := by
  cases t with
  | index n =>
    refine .inr ⟨?_, List.cons_ne_nil _ _, .inr ⟨n, List.mem_cons_self⟩⟩
    cases last with
    | arr items =>
      have hitem : items[n]? = none := h
      simp only [setAt, hitem]
    | _ => rfl
  | name name =>
    cases last with
    | obj members =>
      have hmember : members.lookup name = none := h
      have hnot : name ∉ Members.keys members := by
        intro hmem
        obtain ⟨v, hv⟩ := Members.mem_keys_iff.1 hmem
        rw [hmember] at hv
        cases hv
      rcases exists_names_or_index rest with ⟨names, rfl⟩ | ⟨n, hn⟩
      · refine .inl ⟨members, name, names, rfl, rfl, ?_, ?_⟩
        · simp only [setAt, hmember, Option.getD_none, setAt_empty, Option.map_some,
            Members.insert_of_not_mem _ hnot]
        · simp [Refuses]
      · refine .inr ⟨?_, List.cons_ne_nil _ _, .inr ⟨n, List.mem_cons_of_mem _ hn⟩⟩
        simp only [setAt, hmember, Option.getD_none, setAt_empty_of_index new hn, Option.map_none]
    | _ => exact .inr ⟨rfl, List.cons_ne_nil _ _, .inl (by simp)⟩

/-- A write is refused whatever the value is, or it is made: what was missing of the path is one new
member of the object that it led to. -/
theorem setAt_cases {v last : Value} {path : List Token} {k : Nat}
    (hlast : v.getAt (path.take k) = some last)
    (hstuck : ∀ t rest, path.drop k = t :: rest → last.step? t = none) :
    (last.Refuses (path.drop k) ∧ ∀ new, setAt new path v = none) ∨
    (¬last.Refuses (path.drop k) ∧ ∀ new, ∃ w, setAt new path v = some w ∧
      (path.drop k ≠ [] → ∃ members name names, last = obj members ∧
        path.drop k = .name name :: names.map Token.name ∧
        w.getAt (path.take k) = some (obj (members ++ [(name, nest names new)])))) := by
  have hwrite : ∀ new, setAt new path v =
      (setAt new (path.drop k) last).bind fun changed => setAt changed (path.take k) v := by
    intro new
    conv_lhs => rw [← List.take_append_drop k path]
    exact setAt_append hlast (path.drop k)
  cases hdrop : path.drop k with
  | nil =>
    refine .inr ⟨fun h => h.1 rfl, fun new => ?_⟩
    obtain ⟨w, hw⟩ := exists_setAt_of_getAt hlast new
    refine ⟨w, ?_, fun h => absurd rfl h⟩
    rw [hwrite, hdrop, setAt_nil, Option.bind_some, hw]
  | cons t rest =>
    have hstep := hstuck t rest hdrop
    by_cases hrefuses : last.Refuses (t :: rest)
    · refine .inl ⟨hrefuses, fun new => ?_⟩
      rcases setAt_of_stuck hstep rest new with ⟨-, -, -, -, -, -, hnot⟩ | ⟨hnone, -⟩
      · exact absurd hrefuses hnot
      · rw [hwrite, hdrop, hnone, Option.bind_none]
    · refine .inr ⟨hrefuses, fun new => ?_⟩
      rcases setAt_of_stuck hstep rest new with
        ⟨members, name, names, hobj, hrest, hset, -⟩ | ⟨-, hrefused⟩
      · obtain ⟨w, hw⟩ := exists_setAt_of_getAt hlast (obj (members ++ [(name, nest names new)]))
        refine ⟨w, ?_, fun _ => ⟨members, name, names, hobj, hrest, getAt_setAt hw⟩⟩
        rw [hwrite, hdrop, hset, Option.bind_some, hw]
      · exact absurd hrefused hrefuses

end Value

namespace Document

variable {path : List Token} {text : String}

/-- With `k` the length of the longest beginning of the path that leads somewhere, the path is not
found if and only if something is left of it and it led to no object or an index is left; else the
value is refused if and only if JSON cannot tell it; else it is written, and what was missing of the
path is one new member of the object that it led to, made of objects of one member each. -/
theorem set_cases (hpath : Path.parse text = .ok path) (doc : Document) (new : Datum) :
    ∃ k last, IsGreatest {n | n ≤ path.length ∧ (doc.value.getAt (path.take n)).isSome = true} k ∧
      doc.value.getAt (path.take k) = some last ∧
      (doc.set (.str text) new = .error (.notFound text) ↔ last.Refuses (path.drop k)) ∧
      ((∃ why, doc.set (.str text) new = .error (.incompatible why)) ↔
        ¬last.Refuses (path.drop k) ∧ ¬new.IsJson) ∧
      ((∃ changed, doc.set (.str text) new = .ok changed) ↔
        ¬last.Refuses (path.drop k) ∧ new.IsJson) ∧
      ∀ changed, doc.set (.str text) new = .ok changed →
        ∃ v, new.toValue = .ok v ∧ changed.value.getAt path = some v ∧
          (path.drop k ≠ [] → ∃ members name names, last = .obj members ∧
            path.drop k = .name name :: names.map Token.name ∧
            changed.value.getAt (path.take k) =
              some (.obj (members ++ [(name, Value.nest names v)]))) := by
  obtain ⟨k, last, hgreatest, hlast, hstuck⟩ := Value.exists_longest doc.value path
  refine ⟨k, last, hgreatest, hlast, ?_⟩
  rw [set_eq hpath]
  rcases Value.setAt_cases hlast hstuck with ⟨hrefused, hnone⟩ | ⟨hmade, hwrite⟩
  · have hset : doc.setTokens text path new = .error (.notFound text) := by
      simp [setTokens, hnone]
    rw [hset]
    simp [hrefused]
  · by_cases hjson : new.IsJson
    · obtain ⟨v, hv⟩ := Datum.isJson_iff.1 hjson
      obtain ⟨w, hw, hnew⟩ := hwrite v
      rw [setTokens_of_setAt hv hw]
      refine ⟨by simp [hmade], by simp [hjson], by simp [hmade, hjson], fun changed h => ?_⟩
      cases h
      exact ⟨v, hv, Value.getAt_setAt hw, hnew⟩
    · obtain ⟨why, hwhy⟩ := Datum.exists_incompatible hjson
      obtain ⟨w, hw, -⟩ := hwrite .null
      have hset : doc.setTokens text path new = .error (.incompatible why) := by
        simp [setTokens, hw, hwhy]
      rw [hset]
      simp [hmade, hjson]

/-- A write is refused exactly when it has to be, and the fault tells why. Where every index of the
path can be read as a number: with `k` the length of the longest beginning of the path that leads
somewhere, the path is not found if and only if something is left of it and it led to no object or
an index is left; else the value is refused if and only if JSON cannot tell it, with a fault of type
unless reading the value raised another or the key that is no text cannot be shown; else it is
written, and what was missing of the path is one new member of the object that it led to, made of
objects of one member each. A path with an index of too many digits is refused for that alone. -/
theorem refuses_exactly {gs : List Path.Segment} (hspells : Path.Spells gs text) (doc : Document)
    (new : Datum) :
    ((∀ g ∈ gs, g.readable = true) → ∀ path, gs.map Path.Segment.token = path →
      ∃ k last, IsGreatest {n | n ≤ path.length ∧ (doc.value.getAt (path.take n)).isSome = true} k ∧
        doc.value.getAt (path.take k) = some last ∧
        (doc.set (.str text) new = .error (.notFound text) ↔ last.Refuses (path.drop k)) ∧
        ((∃ why, doc.set (.str text) new = .error (.incompatible why)) ↔
          ¬last.Refuses (path.drop k) ∧ ¬new.IsJson) ∧
        ((∃ changed, doc.set (.str text) new = .ok changed) ↔
          ¬last.Refuses (path.drop k) ∧ new.IsJson) ∧
        ∀ changed, doc.set (.str text) new = .ok changed →
          ∃ v, new.toValue = .ok v ∧ changed.value.getAt path = some v ∧
            (path.drop k ≠ [] → ∃ members name names, last = .obj members ∧
              path.drop k = .name name :: names.map Token.name ∧
              changed.value.getAt (path.take k) =
                some (.obj (members ++ [(name, Value.nest names v)])))) ∧
    (∀ why, doc.set (.str text) new = .error (.incompatible why) →
      (why.Tellable → ∃ message, why.fault = .ofText "TypeError" message) ∧
      (¬why.Tellable → why = .raised why.fault ∨ ∃ k, why = .key k ∧ k.describe = .error why.fault)) ∧
    ((∃ g ∈ gs, g.readable = false) → ∃ digits, Text.wholeLimit < digits ∧
      doc.set (.str text) new = .error (.path (.indexTooLong digits))) := by
  refine ⟨?_, fun why _ => ⟨Incompatible.Tellable.fault, Incompatible.fault_of_not_tellable⟩, ?_⟩
  · rintro hreadable path rfl
    exact set_cases (Path.parse_of_spells hspells hreadable) doc new
  · intro hlong
    obtain ⟨digits, hdigits, herror⟩ := Path.parse_of_long hspells hlong
    exact ⟨digits, hdigits, set_eq_error herror doc new⟩

/-- An index is left of the path, and the value is no JSON either: it is the path that is not
found. -/
theorem refuses_exactly_overruled :
    Path.Spells [.dotted ['a'], .dotted ['y'], .index ['0']] "$.a.y[0]" ∧
      ¬(Datum.float .nan).IsJson ∧
      IsGreatest {n | n ≤ 3 ∧ (growing.value.getAt
        ([.name "a", .name "y", .index 0].take n)).isSome = true} 1 ∧
      growing.set (.str "$.a.y[0]") (.float .nan) = .error (.notFound "$.a.y[0]") := by
  have hspells : Path.Spells [.dotted ['a'], .dotted ['y'], .index ['0']] "$.a.y[0]" :=
    ⟨by decide +kernel, rfl⟩
  have hjson : ¬(Datum.float .nan).IsJson := by
    intro h
    cases h with
    | float finite => cases finite
  obtain ⟨k, last, hgreatest, hlast, hnotFound, -⟩ :=
    (refuses_exactly hspells growing (.float .nan)).1 (by decide)
      [.name "a", .name "y", .index 0] (by decide +kernel)
  have hone : k = 1 := by
    have hle : k ≤ 3 := hgreatest.1.1
    have hsome := hgreatest.1.2
    have hge : 1 ≤ k := hgreatest.2 ⟨by decide, rfl⟩
    have hcases : k = 1 ∨ k = 2 ∨ k = 3 := by omega
    rcases hcases with h | h | h
    · exact h
    · rw [h] at hsome
      cases hsome
    · rw [h] at hsome
      cases hsome
  subst hone
  exact ⟨hspells, hjson, hgreatest, hnotFound.2 ⟨by simp, .inr ⟨0, by simp⟩⟩⟩

/-- An index of ones, one more than can be read. -/
def endless : List Path.Segment := [.index (List.replicate (Text.wholeLimit + 1) '1')]

/-- An item of an object is asked for, and yet that is not what the fault says: its index is too
long. And a dictionary with a whole number as a key is no JSON, and yet the fault is not one of
type: the number is too long to be shown. -/
theorem not_always_refused_for_that :
    (∃ text digits, Path.Spells endless text ∧
      Document.empty.set (.str text) (.int 1) = .error (.path (.indexTooLong digits)) ∧
      (DocumentError.path (.indexTooLong digits)).fault.kind = "ValueError") ∧
    ∃ why, Document.empty.set (.str "$.a") (.dict [(.int (tenTo Text.wholeLimit), .int 1)]) =
        .error (.incompatible why) ∧
      why.fault = .tooManyDigits := by
  constructor
  · have hspells : Path.Spells endless (String.ofList ('$' :: endless.flatMap Path.Segment.write)) :=
      ⟨by decide +kernel, by rw [String.toList_ofList]⟩
    obtain ⟨digits, -, herror⟩ := Path.parse_of_long hspells (by decide +kernel)
    exact ⟨_, digits, hspells, set_eq_error herror _ _, rfl⟩
  · have hread : (Path.parse "$.a").toOption = some [.name "a"] := by decide +kernel
    refine ⟨.key (.int (tenTo Text.wholeLimit)), ?_, ?_⟩
    · rw [set_eq (eq_ok_of_toOption hread)]
      rfl
    · exact Incompatible.fault_key_of_long (Nat.le_of_eq (Int.natAbs_natCast _).symm)

end Document

end ReminderFlow
