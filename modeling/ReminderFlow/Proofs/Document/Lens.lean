import ReminderFlow.Proofs.Document

namespace ReminderFlow

namespace Value

theorem step?_set {items : List Value} {n : Nat} {child : Value} (h : items[n]? = some child)
    (changed : Value) : (arr (items.set n changed)).step? (.index n) = some changed := by
  have hn : n < items.length := (List.getElem?_eq_some_iff.1 h).1
  simp [step?, hn]

theorem step?_insert (name : String) (changed : Value) (members : List (String × Value)) :
    (obj (Members.insert name changed members)).step? (.name name) = some changed :=
  Members.lookup_insert_self name changed members

theorem getAt_cons {v child : Value} {t : Token} (h : v.step? t = some child) (rest : List Token) :
    v.getAt (t :: rest) = child.getAt rest := by
  rw [getAt, h, Option.bind_some]

/-- What was written at a path is read there. -/
theorem getAt_setAt {new v w : Value} {path : List Token} (h : setAt new path v = some w) :
    w.getAt path = some new := by
  fun_induction setAt new path v generalizing w with
  | case1 v =>
    cases h
    rfl
  | case2 n rest items child hchild ih =>
    obtain ⟨changed, hset, rfl⟩ := Option.map_eq_some_iff.1 h
    rw [getAt_cons (step?_set hchild changed)]
    exact ih hset
  | case3 n rest items hnone => cases h
  | case4 name rest members ih =>
    obtain ⟨changed, hset, rfl⟩ := Option.map_eq_some_iff.1 h
    rw [getAt_cons (step?_insert name changed members)]
    exact ih hset
  | case5 => cases h

/-- The second of two writes at a path wins. -/
theorem setAt_setAt {new v w : Value} {path : List Token} (h : setAt new path v = some w)
    (other : Value) : setAt other path w = setAt other path v := by
  fun_induction setAt new path v generalizing w with
  | case1 v => rfl
  | case2 n rest items child hchild ih =>
    obtain ⟨changed, hset, rfl⟩ := Option.map_eq_some_iff.1 h
    have hn : n < items.length := (List.getElem?_eq_some_iff.1 hchild).1
    have hitem : (items.set n changed)[n]? = some changed := by simp [hn]
    simp only [setAt, hitem, hchild, ih hset, List.set_set]
  | case3 n rest items hnone => cases h
  | case4 name rest members ih =>
    obtain ⟨changed, hset, rfl⟩ := Option.map_eq_some_iff.1 h
    simp only [setAt, Members.lookup_insert_self, Option.getD_some, ih hset, Members.insert_insert]
  | case5 => cases h

/-- To write what is read at a path changes nothing. -/
theorem setAt_of_getAt {u v : Value} {path : List Token} (h : v.getAt path = some u) :
    setAt u path v = some v := by
  fun_induction setAt u path v with
  | case1 v =>
    cases h
    rfl
  | case2 n rest items child hchild ih =>
    rw [getAt_cons (show (arr items).step? (.index n) = some child from hchild)] at h
    obtain ⟨hn, rfl⟩ := List.getElem?_eq_some_iff.1 hchild
    rw [ih h, Option.map_some, List.set_getElem_self]
  | case3 n rest items hnone =>
    have hstep : (arr items).step? (.index n) = none := hnone
    rw [getAt, hstep] at h
    cases h
  | case4 name rest members ih =>
    obtain ⟨child, hchild, h⟩ := Option.bind_eq_some_iff.1 h
    have hlookup : members.lookup name = some child := hchild
    rw [hlookup, Option.getD_some] at ih ⊢
    rw [ih h, Option.map_some, Members.insert_of_lookup hlookup]
  | case5 path v hnil hitem hmember =>
    cases path with
    | nil => exact (hnil rfl).elim
    | cons t rest =>
      obtain ⟨child, hchild, -⟩ := Option.bind_eq_some_iff.1 h
      unfold step? at hchild
      split at hchild
      · exact (hitem _ _ _ rfl rfl).elim
      · exact (hmember _ _ _ rfl rfl).elim
      · cases hchild

/-- Whether a path can be written does not hang on what is written. -/
theorem isNone_setAt_eq (first second v : Value) (path : List Token) :
    (setAt first path v).isNone = (setAt second path v).isNone := by
  fun_induction setAt first path v with
  | case1 v => rfl
  | case2 n rest items child hchild ih =>
    simp only [setAt, hchild, Option.isNone_map, ih]
  | case3 n rest items hnone => simp only [setAt, hnone]
  | case4 name rest members ih => simp only [setAt, Option.isNone_map, ih]
  | case5 path v hnil hitem hmember =>
    have hnone : setAt second path v = none := by
      unfold setAt
      split
      · exact (hnil rfl).elim
      · exact (hitem _ _ _ rfl rfl).elim
      · exact (hmember _ _ _ rfl rfl).elim
      · rfl
    rw [hnone]

end Value

namespace DocumentError

/-- The same error, told of another spelling of the path. -/
def toldOf (text : String) : DocumentError → DocumentError
  | notFound _ => notFound text
  | e => e

end DocumentError

namespace Document

variable {doc changed : Document} {path : List Token} {text : String} {new : Datum}

theorem setTokens_of_setAt {v w : Value} (hvalue : new.toValue = .ok v)
    (hset : Value.setAt v path doc.value = some w) : doc.setTokens text path new = .ok ⟨w⟩ := by
  have hway : (Value.setAt .null path doc.value).isNone = false := by
    rw [Value.isNone_setAt_eq .null v, hset]
    rfl
  simp [setTokens, hway, hvalue, hset]

theorem exists_of_setTokens (h : doc.setTokens text path new = .ok changed) :
    ∃ v, new.toValue = .ok v ∧ Value.setAt v path doc.value = some changed.value := by
  unfold setTokens at h
  split_ifs at h
  split at h
  · cases h
  · rename_i v hv
    split at h
    · rename_i w hw
      cases h
      exact ⟨v, hv, hw⟩
    · cases h

/-- A second write at the same path comes to the same with the first one and without it. -/
theorem setTokens_setTokens (h : doc.setTokens text path new = .ok changed) (other : String)
    (last : Datum) : changed.setTokens other path last = doc.setTokens other path last := by
  obtain ⟨v, -, hset⟩ := exists_of_setTokens h
  simp only [setTokens, Value.setAt_setAt hset]

theorem getTokens_toldOf (first second : String) :
    doc.getTokens second path = (doc.getTokens first path).mapError (.toldOf second) := by
  unfold getTokens
  cases doc.value.getAt path with
  | none => rfl
  | some v => rfl

theorem setTokens_toldOf (first second : String) :
    doc.setTokens second path new = (doc.setTokens first path new).mapError (.toldOf second) := by
  unfold setTokens
  split_ifs with hway
  · rfl
  · cases new.toValue with
    | error e => rfl
    | ok v =>
      dsimp only
      cases Value.setAt v path doc.value with
      | none => rfl
      | some w => rfl

/-- Reading and writing obey the laws of a lens, whichever spelling of the path is used for what.
What was written is read, and a second write comes to the same as if it were the only one; to write
what is read gives back the document; and the spellings differ in nothing but the text of errors. -/
theorem obeys_lens_laws (hdoc : doc.IsProper) {first second : String}
    (hfirst : Path.parse first = .ok path) (hsecond : Path.parse second = .ok path) {v w : Value}
    (hv : v.IsProper) (hw : w.IsProper) :
    (∀ changed, doc.set (.str first) (.ofValue v) = .ok changed →
      changed.get (.str second) = .ok v ∧ changed.contains (.str second) = .ok true ∧
        ∃ last, changed.set (.str second) (.ofValue w) = .ok last ∧
          doc.set (.str second) (.ofValue w) = .ok last) ∧
    (∀ u, doc.get (.str first) = .ok u → doc.set (.str second) (.ofValue u) = .ok doc) ∧
    doc.contains (.str second) = doc.contains (.str first) ∧
    doc.get (.str second) = (doc.get (.str first)).mapError (.toldOf second) ∧
    ∀ new, doc.set (.str second) new = (doc.set (.str first) new).mapError (.toldOf second) := by
  simp only [get_eq hfirst, get_eq hsecond, contains_eq hfirst, contains_eq hsecond, set_eq hfirst,
    set_eq hsecond]
  refine ⟨?_, ?_, trivial, getTokens_toldOf first second, fun _ => setTokens_toldOf first second⟩
  · intro changed hset
    obtain ⟨v', hvalue, hchanged⟩ := exists_of_setTokens hset
    obtain rfl : v = v' := by
      rw [Datum.toValue_ofValue hv] at hvalue
      exact Except.ok.inj hvalue
    have hread := Value.getAt_setAt hchanged
    obtain ⟨last, hlast⟩ : ∃ last, Value.setAt w path doc.value = some last := by
      have hway := Value.isNone_setAt_eq v w doc.value path
      rw [hchanged] at hway
      exact Option.isSome_iff_exists.1 (by simpa using hway)
    have honly : doc.setTokens second path (.ofValue w) = .ok ⟨last⟩ :=
      setTokens_of_setAt (Datum.toValue_ofValue hw) hlast
    refine ⟨?_, ?_, ⟨last⟩, ?_, honly⟩
    · rw [getTokens, hread]
    · rw [hread]
      rfl
    · rw [setTokens_setTokens hset, honly]
  · intro u hget
    have hread : doc.value.getAt path = some u := by
      unfold getTokens at hget
      split at hget
      · rename_i x hx
        cases hget
        exact hx
      · cases hget
    have hu : u.IsProper := Value.IsProper.getAt hdoc hread
    exact setTokens_of_setAt (Datum.toValue_ofValue hu) (Value.setAt_of_getAt hread)

def nested : Document :=
  ⟨.obj [("a", .arr [.int 1, .obj [("b", .null)]]), ("c", .str "d")]⟩

def nestedPath : List Token := [.name "a", .index 1, .name "b"]

theorem isProper_nested : nested.IsProper := by
  have hdatum : ofDatum (.ofValue nested.value) = .ok nested := rfl
  exact isProper_ofDatum hdatum

theorem parse_nested : Path.parse "$.a[1].b" = .ok nestedPath ∧
    Path.parse "$['a'][1][\"b\"]" = .ok nestedPath := by
  have hdotted : (Path.parse "$.a[1].b").toOption = some nestedPath := by decide +kernel
  have hquoted : (Path.parse "$['a'][1][\"b\"]").toOption = some nestedPath := by decide +kernel
  exact ⟨eq_ok_of_toOption hdotted, eq_ok_of_toOption hquoted⟩

theorem obeys_lens_laws_nested :
    nested.IsProper ∧ Path.parse "$.a[1].b" = .ok nestedPath ∧
      Path.parse "$['a'][1][\"b\"]" = .ok nestedPath ∧ (Value.bool true).IsProper ∧
      (Value.arr []).IsProper ∧
      ∃ changed last, nested.set (.str "$.a[1].b") (.bool true) = .ok changed ∧
        changed.get (.str "$['a'][1][\"b\"]") = .ok (.bool true) ∧
        changed.set (.str "$['a'][1][\"b\"]") (.list []) = .ok last ∧
        nested.set (.str "$['a'][1][\"b\"]") (.list []) = .ok last ∧
        nested.set (.str "$['a'][1][\"b\"]") .null = .ok nested := by
  obtain ⟨hdotted, hquoted⟩ := parse_nested
  have hlist : (Value.arr []).IsProper := .arr (by simp)
  obtain ⟨hwritten, hread, -⟩ :=
    obeys_lens_laws isProper_nested hdotted hquoted (.bool true) hlist
  have hset : nested.set (.str "$.a[1].b") (.bool true) =
      .ok ⟨.obj [("a", .arr [.int 1, .obj [("b", .bool true)]]), ("c", .str "d")]⟩ := by
    rw [set_eq hdotted]
    rfl
  have hget : nested.get (.str "$.a[1].b") = .ok .null := by
    rw [get_eq hdotted]
    rfl
  obtain ⟨hseen, -, last, hlast, honly⟩ := hwritten _ hset
  exact ⟨isProper_nested, hdotted, hquoted, .bool true, hlist, _, last, hset, hseen, hlast, honly,
    hread _ hget⟩

end Document

end ReminderFlow
