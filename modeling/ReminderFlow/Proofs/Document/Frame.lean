import ReminderFlow.Proofs.Document.Alike
import ReminderFlow.Proofs.Document.Lens

namespace ReminderFlow

namespace Path

/-- Neither of two paths is the beginning of the other. -/
def Apart (path other : List Token) : Prop := ¬path <+: other ∧ ¬other <+: path

theorem Apart.symm {path other : List Token} (h : Apart path other) : Apart other path :=
  ⟨h.2, h.1⟩

theorem apart_cons_self_iff {t : Token} {path other : List Token} :
    Apart (t :: path) (t :: other) ↔ Apart path other := by
  simp [Apart, List.cons_prefix_cons]

theorem Apart.ne_nil {path other : List Token} (h : Apart path other) : other ≠ [] := by
  rintro rfl
  exact h.2 (List.nil_prefix)

/-- What leads on from the first of two such paths does not meet the second either. -/
theorem Apart.append {path other : List Token} (h : Apart path other) (more : List Token) :
    Apart (path ++ more) other := by
  constructor
  · intro hprefix
    exact h.1 ((List.prefix_append path more).trans hprefix)
  · intro hprefix
    rcases List.prefix_or_prefix_of_prefix hprefix (List.prefix_append path more) with hle | hle
    · exact h.2 hle
    · exact h.1 hle

end Path

/-- What a step can be made from, with nothing inside. -/
def Token.holder : Token → Value
  | name _ => .obj []
  | index _ => .arr []

namespace Value

/-- What a write may do to an object or a list when it goes on through one of its members or items.
The names keep their order, and at most the one that is gone through is new and comes last; the
items stay as many. The others are as they were. -/
inductive Passed : Token → Value → Value → Prop
  | member {name : String} {members after : List (String × Value)}
      (names : Members.keys after = Members.keys members ∨
        name ∉ Members.keys members ∧ Members.keys after = Members.keys members ++ [name])
      (others : ∀ other, other ≠ name → after.lookup other = members.lookup other) :
      Passed (.name name) (obj members) (obj after)
  | item {n : Nat} {items after : List Value} (length : after.length = items.length)
      (others : ∀ m, m ≠ n → after[m]? = items[m]?) : Passed (.index n) (arr items) (arr after)

theorem Passed.surface_eq {t : Token} {v w : Value} (h : Passed t v w) :
    v.surface = t.holder ∧ w.surface = t.holder := by
  cases h <;> exact ⟨rfl, rfl⟩

theorem Passed.step?_of_ne {s t : Token} {v w : Value} (h : Passed s v w) (hne : t ≠ s) :
    w.step? t = v.step? t := by
  cases h with
  | member names others =>
    cases t with
    | name other => exact others other fun heq => hne (congrArg Token.name heq)
    | index m => rfl
  | item length others =>
    cases t with
    | name other => rfl
    | index m => exact others m fun heq => hne (congrArg Token.index heq)

/-- A write behind a step is a write in what the step leads to, or in an object that is made
there. -/
theorem setAt_cons {new v w : Value} {t : Token} {rest : List Token}
    (h : setAt new (t :: rest) v = some w) :
    ∃ changed, setAt new rest ((v.step? t).getD (obj [])) = some changed ∧
      w.step? t = some changed ∧ Passed t v w := by
  cases t with
  | name name =>
    cases v with
    | obj members =>
      obtain ⟨changed, hset, rfl⟩ := Option.map_eq_some_iff.1 h
      refine ⟨changed, hset, step?_insert name changed members, .member ?_ fun other hne => ?_⟩
      · by_cases hname : name ∈ Members.keys members
        · exact .inl (Members.keys_insert_of_mem changed hname)
        · refine .inr ⟨hname, ?_⟩
          rw [Members.insert_of_not_mem changed hname]
          exact List.map_append
      · exact Members.lookup_insert_of_ne hne changed members
    | _ => cases h
  | index n =>
    cases v with
    | arr items =>
      cases hchild : items[n]? with
      | none => simp [setAt, hchild] at h
      | some child =>
        rw [setAt, hchild] at h
        obtain ⟨changed, hset, rfl⟩ := Option.map_eq_some_iff.1 h
        have hstep : (arr items).step? (.index n) = some child := hchild
        refine ⟨changed, by rwa [hstep], step?_set hchild changed, .item List.length_set ?_⟩
        intro m hne
        exact List.getElem?_set_ne (Ne.symm hne)
    | _ => cases h

theorem getAt_append (v : Value) (path more : List Token) :
    v.getAt (path ++ more) = (v.getAt path).bind fun w => w.getAt more := by
  induction path generalizing v with
  | nil => rfl
  | cons t rest ih =>
    rw [List.cons_append, getAt, getAt, Option.bind_assoc]
    congr 1
    funext child
    exact ih child

/-- Behind a step that is yet to be made nothing is found, and nothing in an empty object either. -/
theorem getAt_getD (v : Value) (t : Token) {rest : List Token} (h : rest ≠ []) :
    ((v.step? t).getD (obj [])).getAt rest = v.getAt (t :: rest) := by
  rw [getAt]
  cases v.step? t with
  | some child => rfl
  | none =>
    cases rest with
    | nil => exact (h rfl).elim
    | cons t' more => cases t' <;> rfl

/-- What lies off the path is found as it was. -/
theorem getAt_setAt_of_apart {new v w : Value} {path other : List Token}
    (h : setAt new path v = some w) (ha : Path.Apart path other) : w.getAt other = v.getAt other := by
  induction path generalizing v w other with
  | nil => exact (ha.1 List.nil_prefix).elim
  | cons t rest ih =>
    obtain ⟨changed, hset, hstep, hpassed⟩ := setAt_cons h
    cases other with
    | nil => exact (ha.ne_nil rfl).elim
    | cons t' more =>
      by_cases heq : t' = t
      · subst heq
        have hrest : Path.Apart rest more := Path.apart_cons_self_iff.1 ha
        rw [getAt_cons hstep, ih hset hrest, getAt_getD v t' hrest.ne_nil]
      · rw [getAt, getAt, hpassed.step?_of_ne heq]

/-- What the path leads through is passed. -/
theorem exists_passed {new v w x : Value} {before rest : List Token} {t : Token}
    (h : setAt new (before ++ t :: rest) v = some w) (hx : v.getAt before = some x) :
    ∃ y, w.getAt before = some y ∧ Passed t x y := by
  induction before generalizing v w with
  | nil =>
    obtain ⟨-, -, -, hpassed⟩ := setAt_cons h
    cases hx
    exact ⟨w, rfl, hpassed⟩
  | cons s more ih =>
    obtain ⟨changed, hset, hstep, -⟩ := setAt_cons h
    obtain ⟨child, hchild, hx⟩ := Option.bind_eq_some_iff.1 hx
    rw [hchild, Option.getD_some] at hset
    rw [getAt_cons hstep]
    exact ih hset hx

/-- After the write, each part of the path is there, with what the next step can be made from. -/
theorem exists_holder {new v w : Value} {before rest : List Token} {t : Token}
    (h : setAt new (before ++ t :: rest) v = some w) :
    ∃ y, w.getAt before = some y ∧ y.surface = t.holder := by
  induction before generalizing v w with
  | nil =>
    obtain ⟨-, -, -, hpassed⟩ := setAt_cons h
    exact ⟨w, rfl, hpassed.surface_eq.2⟩
  | cons s more ih =>
    obtain ⟨changed, hset, hstep, -⟩ := setAt_cons h
    rw [getAt_cons hstep]
    exact ih hset

theorem getAt_setAt_append {new v w : Value} {path : List Token} (h : setAt new path v = some w)
    (more : List Token) : w.getAt (path ++ more) = new.getAt more := by
  rw [getAt_append, getAt_setAt h, Option.bind_some]

/-- A beginning of a path that is not all of it. -/
theorem exists_cons_of_prefix {before path : List Token} (h : before <+: path)
    (hne : ¬path <+: before) : ∃ t rest, path = before ++ t :: rest := by
  obtain ⟨more, rfl⟩ := h
  cases more with
  | nil => exact (hne (by simp)).elim
  | cons t rest => exact ⟨t, rest, rfl⟩

/-- What is found before or beside the end of a path stays, up to what is inside. -/
theorem exists_surface {new v w x : Value} {path place : List Token}
    (h : setAt new path v = some w) (hplace : ¬path <+: place) (hx : v.getAt place = some x) :
    ∃ y, w.getAt place = some y ∧ y.surface = x.surface := by
  by_cases hway : place <+: path
  · obtain ⟨t, rest, rfl⟩ := exists_cons_of_prefix hway hplace
    obtain ⟨y, hy, hpassed⟩ := exists_passed h hx
    exact ⟨y, hy, hpassed.surface_eq.2.trans hpassed.surface_eq.1.symm⟩
  · exact ⟨x, (getAt_setAt_of_apart h ⟨hplace, hway⟩).trans hx, rfl⟩

/-- On the path of one of two writes that are apart, or behind its end, the same is found whether it
is the first or the last. -/
theorem surface_eq_of_writes {new newer v first last first' last' : Value} {path other : List Token}
    (hfirst : setAt new path v = some first) (hlast : setAt newer other first = some last)
    (hlast' : setAt new path first' = some last') (ha : Path.Apart path other) {place : List Token}
    (hplace : path <+: place ∨ place <+: path) :
    (last.getAt place).map surface = (last'.getAt place).map surface := by
  by_cases hbehind : path <+: place
  · obtain ⟨more, rfl⟩ := hbehind
    have hapart : Path.Apart other (path ++ more) := (ha.append more).symm
    rw [getAt_setAt_of_apart hlast hapart, getAt_setAt_append hfirst, getAt_setAt_append hlast']
  · have hway : place <+: path := hplace.resolve_left hbehind
    have hother : ¬other <+: place := fun hle => ha.2 (hle.trans hway)
    obtain ⟨t, rest, rfl⟩ := exists_cons_of_prefix hway hbehind
    obtain ⟨x, hx, hholder⟩ := exists_holder hfirst
    obtain ⟨y, hy, hsurface⟩ := exists_surface hlast hother hx
    obtain ⟨z, hz, hholder'⟩ := exists_holder hlast'
    rw [hy, hz, Option.map_some, Option.map_some, hsurface, hholder, hholder']

/-- Two writes that are apart come to the same in either order, up to the order of members. -/
theorem alike_of_writes {new newer v first last first' last' : Value} {path other : List Token}
    (ha : Path.Apart path other) (hfirst : setAt new path v = some first)
    (hlast : setAt newer other first = some last) (hfirst' : setAt newer other v = some first')
    (hlast' : setAt new path first' = some last') : last.Alike last' := by
  intro place
  by_cases hpath : path <+: place ∨ place <+: path
  · exact surface_eq_of_writes hfirst hlast hlast' ha hpath
  by_cases hother : other <+: place ∨ place <+: other
  · exact (surface_eq_of_writes hfirst' hlast' hlast ha.symm hother).symm
  -- The place is apart from both paths.
  have hpath : Path.Apart path place := not_or.1 hpath
  have hother : Path.Apart other place := not_or.1 hother
  rw [getAt_setAt_of_apart hlast hother, getAt_setAt_of_apart hfirst hpath,
    getAt_setAt_of_apart hlast' hpath, getAt_setAt_of_apart hfirst' hother]

end Value

namespace Document

variable {doc changed : Document} {path : List Token} {text : String} {new : Datum}

/-- A write stays in its place. What its path leads through keeps its members in their order, but
for one that may be new and comes last, and the number of its items. At a path that is apart from it
the same is read as before, or nothing as before; and if another write is made there, the two come
to equal documents in either order. -/
theorem writes_in_place (hdoc : doc.IsProper) (hpath : Path.parse text = .ok path)
    (hset : doc.set (.str text) new = .ok changed) :
    (∀ before t rest x, path = before ++ t :: rest → doc.value.getAt before = some x →
      ∃ y, changed.value.getAt before = some y ∧ Value.Passed t x y) ∧
    ∀ elsewhere other, Path.parse elsewhere = .ok other → Path.Apart path other →
      ((∃ u, doc.get (.str elsewhere) = .ok u ∧ changed.get (.str elsewhere) = .ok u) ∨
        doc.get (.str elsewhere) = .error (.notFound elsewhere) ∧
          changed.get (.str elsewhere) = .error (.notFound elsewhere)) ∧
      ∀ newer last first' last', changed.set (.str elsewhere) newer = .ok last →
        doc.set (.str elsewhere) newer = .ok first' → first'.set (.str text) new = .ok last' →
          last.value.Alike last'.value ∧ last.same last' = true := by
  have hproper : changed.IsProper := hdoc.set hset
  have hwrite := hset
  rw [set_eq hpath] at hwrite
  obtain ⟨v, hv, hwrite⟩ := exists_of_setTokens hwrite
  refine ⟨?_, fun elsewhere other hother hapart => ⟨?_, ?_⟩⟩
  · rintro before t rest x rfl hx
    exact Value.exists_passed hwrite hx
  · rw [get_eq hother, get_eq hother, getTokens, getTokens,
      Value.getAt_setAt_of_apart hwrite hapart]
    cases doc.value.getAt other with
    | some u => exact .inl ⟨u, rfl, rfl⟩
    | none => exact .inr ⟨rfl, rfl⟩
  · intro newer last first' last' hlast hfirst' hlast'
    have hends : last.IsProper ∧ last'.IsProper := ⟨hproper.set hlast, (hdoc.set hfirst').set hlast'⟩
    rw [set_eq hother] at hlast hfirst'
    rw [set_eq hpath] at hlast'
    obtain ⟨w, hw, hlast⟩ := exists_of_setTokens hlast
    obtain ⟨w', hw', hfirst'⟩ := exists_of_setTokens hfirst'
    obtain ⟨v', hv', hlast'⟩ := exists_of_setTokens hlast'
    obtain rfl := Except.ok.inj (hw.symm.trans hw')
    obtain rfl := Except.ok.inj (hv.symm.trans hv')
    have halike := Value.alike_of_writes hapart hwrite hlast hfirst' hlast'
    exact ⟨halike, halike.same hends.1 hends.2⟩

/-- An object that gets two new members from two writes, in the order of the writes. -/
def growing : Document := ⟨.obj [("a", .obj [("x", .int 1)]), ("l", .arr [.int 0])]⟩

def grown (members : List (String × Value)) : Document :=
  ⟨.obj [("a", .obj (("x", .int 1) :: members)), ("l", .arr [.int 0])]⟩

theorem writes_in_place_growing :
    growing.IsProper ∧ Path.parse "$.a.y.z" = .ok [.name "a", .name "y", .name "z"] ∧
      Path.parse "$.a['w']" = .ok [.name "a", .name "w"] ∧
      growing.set (.str "$.a.y.z") (.bool true) = .ok (grown [("y", .obj [("z", .bool true)])]) ∧
      (∃ y, (grown [("y", .obj [("z", .bool true)])]).value.getAt [.name "a"] = some y ∧
        Value.Passed (.name "y") (.obj [("x", .int 1)]) y) ∧
      (grown [("y", .obj [("z", .bool true)])]).get (.str "$.a['w']") =
        .error (.notFound "$.a['w']") ∧
      (grown [("y", .obj [("z", .bool true)]), ("w", .null)]).same
        (grown [("w", .null), ("y", .obj [("z", .bool true)])]) = true := by
  have hproper : growing.IsProper :=
    isProper_ofDatum (show ofDatum (.ofValue growing.value) = .ok growing from rfl)
  have hdeep : (Path.parse "$.a.y.z").toOption = some [.name "a", .name "y", .name "z"] := by
    decide +kernel
  have hflat : (Path.parse "$.a['w']").toOption = some [.name "a", .name "w"] := by decide +kernel
  have hpath := eq_ok_of_toOption hdeep
  have hother := eq_ok_of_toOption hflat
  have hset : growing.set (.str "$.a.y.z") (.bool true) =
      .ok (grown [("y", .obj [("z", .bool true)])]) := by
    rw [set_eq hpath]
    rfl
  obtain ⟨hway, helsewhere⟩ := writes_in_place hproper hpath hset
  have hapart : Path.Apart [.name "a", .name "y", .name "z"] [.name "a", .name "w"] := by
    simp [Path.Apart, List.cons_prefix_cons]
  obtain ⟨hread, hmeet⟩ := helsewhere _ _ hother hapart
  have habsent : growing.get (.str "$.a['w']") = .error (.notFound "$.a['w']") := by
    rw [get_eq hother]
    rfl
  have hstill : (grown [("y", .obj [("z", .bool true)])]).get (.str "$.a['w']") =
      .error (.notFound "$.a['w']") := by
    rcases hread with ⟨u, hu, -⟩ | ⟨-, hnone⟩
    · rw [habsent] at hu
      cases hu
    · exact hnone
  refine ⟨hproper, hpath, hother, hset, hway [.name "a"] _ _ _ rfl rfl, hstill, ?_⟩
  refine (hmeet .null _ (grown [("w", .null)]) _ ?_ ?_ ?_).2
  · rw [set_eq hother]
    rfl
  · rw [set_eq hother]
    rfl
  · rw [set_eq hpath]
    rfl

end Document

end ReminderFlow
