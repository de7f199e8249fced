import Mathlib.Data.List.Forall2
import ReminderFlow.Proofs.Document

namespace ReminderFlow

namespace Value

/-- The value without what is inside of it. -/
def surface : Value → Value
  | arr _ => arr []
  | obj _ => obj []
  | v => v

/-- The same is found at every path, so that the values differ in the order of members at most. -/
def Alike (a b : Value) : Prop :=
  ∀ path, (a.getAt path).map surface = (b.getAt path).map surface

theorem Alike.symm {a b : Value} (h : a.Alike b) : b.Alike a := fun path => (h path).symm

theorem Alike.trans {a b c : Value} (h : a.Alike b) (h' : b.Alike c) : a.Alike c :=
  fun path => (h path).trans (h' path)

theorem Alike.surface_eq {a b : Value} (h : a.Alike b) : a.surface = b.surface :=
  Option.some.inj (h [])

/-- A step that leads somewhere in one of two values leads to something alike in the other. -/
theorem Alike.step {a b v : Value} (h : a.Alike b) {t : Token} (hv : a.step? t = some v) :
    ∃ w, b.step? t = some w ∧ v.Alike w := by
  have hfirst := h [t]
  rw [getAt, hv, getAt] at hfirst
  cases hw : b.step? t with
  | none =>
    rw [hw] at hfirst
    cases hfirst
  | some w =>
    refine ⟨w, rfl, fun path => ?_⟩
    have hpath := h (t :: path)
    rwa [getAt, getAt, hv, hw] at hpath

theorem Alike.items {items others : List Value} (h : (arr items).Alike (arr others)) :
    List.Forall₂ Alike items others := by
  have hstep {a b : List Value} (hab : (arr a).Alike (arr b)) {n : Nat} (hn : n < a.length) :
      ∃ w, b[n]? = some w ∧ a[n].Alike w :=
    hab.step (t := .index n) (List.getElem?_eq_getElem hn)
  have hle {a b : List Value} (hab : (arr a).Alike (arr b)) : a.length ≤ b.length := by
    by_contra hless
    obtain ⟨w, hw, -⟩ := hstep hab (Nat.not_le.1 hless)
    simp at hw
  rw [List.forall₂_iff_get]
  refine ⟨Nat.le_antisymm (hle h) (hle h.symm), fun n hn hn' => ?_⟩
  obtain ⟨w, hw, halike⟩ := hstep h hn
  rw [List.getElem?_eq_getElem hn'] at hw
  rw [List.get_eq_getElem, List.get_eq_getElem, Option.some.inj hw]
  exact halike

theorem Alike.member {members others : List (String × Value)}
    (h : (obj members).Alike (obj others)) {name : String} {v : Value}
    (hv : members.lookup name = some v) : ∃ w, others.lookup name = some w ∧ v.Alike w :=
  h.step (t := .name name) hv

theorem Alike.mem_keys_iff {members others : List (String × Value)}
    (h : (obj members).Alike (obj others)) (name : String) :
    name ∈ Members.keys members ↔ name ∈ Members.keys others := by
  rw [Members.mem_keys_iff, Members.mem_keys_iff]
  constructor
  · rintro ⟨v, hv⟩
    exact (h.member hv).imp fun _ hw => hw.1
  · rintro ⟨w, hw⟩
    exact (h.symm.member hw).imp fun _ hv => hv.1

theorem sameItems_iff {items others : List Value} :
    sameItems items others = true ↔ List.Forall₂ (fun v w => v.same w = true) items others := by
  induction items generalizing others with
  | nil => cases others <;> simp [sameItems]
  | cons v rest ih =>
    cases others with
    | nil => simp [sameItems]
    | cons w more => rw [sameItems, Bool.and_eq_true, List.forall₂_cons, ih]

theorem sameMembers_iff {members others : List (String × Value)} :
    sameMembers members others = true ↔
      ∀ m ∈ members, ∃ w, others.lookup m.1 = some w ∧ m.2.same w = true := by
  induction members with
  | nil => simp [sameMembers]
  | cons m rest ih =>
    obtain ⟨k, v⟩ := m
    rw [sameMembers, Bool.and_eq_true, List.forall_mem_cons, ih]
    cases others.lookup k <;> simp

theorem same_obj_iff {members others : List (String × Value)} :
    (obj members).same (obj others) = true ↔ members.length = others.length ∧
      ∀ m ∈ members, ∃ w, others.lookup m.1 = some w ∧ m.2.same w = true := by
  rw [same, Bool.and_eq_true, decide_eq_true_eq, sameMembers_iff]

theorem same_arr_iff {items others : List Value} :
    (arr items).same (arr others) = true ↔
      List.Forall₂ (fun v w => v.same w = true) items others := by
  rw [same, sameItems_iff]

theorem same_of_quantity {a : Value} {p : Number} (ha : a.quantity? = some p) (b : Value) :
    a.same b = b.quantity?.any p.same := by
  cases a with
  | bool x => cases ha; rw [same]; cases b.quantity? <;> rfl
  | int n => cases ha; rw [same]; cases b.quantity? <;> rfl
  | float x => cases ha; rw [same]; cases b.quantity? <;> rfl
  | _ => cases ha

theorem same_self_of_quantity {v : Value} {p : Number} {place : Number.Place}
    (h : v.quantity? = some p) (hplace : p.place? = some place) : v.same v = true := by
  rw [same_of_quantity h, h, Option.any_some, Number.same, hplace]
  exact decide_eq_true rfl

/-- Proper values that are alike are equal. -/
theorem Alike.same {a b : Value} (h : a.Alike b) (ha : a.IsProper) (hb : b.IsProper) :
    a.same b = true := by
  have hsurface := h.surface_eq
  induction ha generalizing b with
  | arr each ih =>
    rename_i items
    cases b with
    | arr others =>
      obtain ⟨hlength, hpairs⟩ := List.forall₂_iff_zip.1 h.items
      rw [same_arr_iff, List.forall₂_iff_zip]
      refine ⟨hlength, fun {v w} hpair => ?_⟩
      obtain ⟨hv, hw⟩ := List.of_mem_zip hpair
      exact ih v hv (hpairs hpair) (hb.item w hw) (hpairs hpair).surface_eq
    | _ => cases hsurface
  | obj names each ih =>
    rename_i members
    cases b with
    | obj others =>
      rw [same_obj_iff]
      refine ⟨Members.length_eq_of_mem_iff names hb.names h.mem_keys_iff, fun m hm => ?_⟩
      obtain ⟨w, hw, halike⟩ := h.member (Members.lookup_of_mem names hm)
      have hproper : w.IsProper := hb.member _ (Members.mem_of_lookup hw)
      exact ⟨w, hw, ih m hm halike hproper halike.surface_eq⟩
    | _ => cases hsurface
  | @float x finite =>
    cases b <;> cases hsurface
    cases x with
    | finite negative rank => exact same_self_of_quantity rfl rfl
    | _ => cases finite
  | null =>
    cases b <;> cases hsurface
    rfl
  | bool x =>
    cases b <;> cases hsurface
    exact same_self_of_quantity rfl rfl
  | int n =>
    cases b <;> cases hsurface
    exact same_self_of_quantity rfl rfl
  | str s =>
    cases b <;> cases hsurface
    simp [Value.same, str?]

/-- Nothing in both places, or equal values. -/
abbrev SameAt (v w : Option Value) : Prop := Option.Rel (fun v w => v.same w = true) v w

theorem exists_of_sameAt {v : Option Value} {w : Value} (h : SameAt v (some w)) :
    ∃ v', v = some v' ∧ v'.same w = true := by
  cases h with
  | some hsame => exact ⟨_, rfl, hsame⟩

theorem exists_of_sameAt' {v : Value} {w : Option Value} (h : SameAt (some v) w) :
    ∃ w', w = some w' ∧ v.same w' = true := by
  cases h with
  | some hsame => exact ⟨_, rfl, hsame⟩

theorem eq_none_of_sameAt {w : Option Value} (h : SameAt none w) : w = none := by
  cases h
  rfl

/-- What counts as a number equals numbers only. -/
theorem exists_quantity_of_same {a b : Value} {p : Number} (h : a.same b = true)
    (ha : a.quantity? = some p) : ∃ q, b.quantity? = some q ∧ p.same q = true := by
  rw [same_of_quantity ha, Option.any_eq_true] at h
  exact h

/-- What does not count as a number looks from outside like everything that it equals. -/
theorem surface_eq_of_same {a b : Value} (h : a.same b = true) (ha : a.quantity? = none) :
    a.surface = b.surface := by
  cases a with
  | null => cases b <;> first | rfl | cases h
  | str s =>
    cases b with
    | str t =>
      have hst : t = s := by simpa [same, str?] using h
      rw [hst]
    | _ => simp [same, str?] at h
  | arr items => cases b <;> first | rfl | cases h
  | obj members => cases b <;> first | rfl | cases h
  | _ => cases ha

theorem quantity?_surface (v : Value) : v.surface.quantity? = v.quantity? := by
  cases v <;> rfl

/-- Of two equal values both count as numbers or none does. -/
theorem isSome_quantity_of_same {a b : Value} (h : a.same b = true) :
    a.quantity?.isSome = b.quantity?.isSome := by
  cases hp : a.quantity? with
  | none =>
    have hsurface := surface_eq_of_same h hp
    rw [← quantity?_surface b, ← hsurface, quantity?_surface, hp]
  | some p =>
    obtain ⟨q, hq, -⟩ := exists_quantity_of_same h hp
    rw [hq]
    rfl

theorem step?_of_quantity {v : Value} {p : Number} (h : v.quantity? = some p) (t : Token) :
    v.step? t = none := by
  cases v with
  | arr items => cases h
  | obj members => cases h
  | _ => cases t <;> rfl

theorem rel_getElem? {α β : Type} {R : α → β → Prop} {items : List α} {others : List β}
    (h : List.Forall₂ R items others) (n : Nat) : Option.Rel R items[n]? others[n]? := by
  induction h generalizing n with
  | nil => exact .none
  | cons hfirst hrest ih =>
    cases n with
    | zero => exact .some hfirst
    | succ n => exact ih n

/-- Members with distinct names are equal by name: a name that one of two objects lacks is missing
in the other, since they have equally many. -/
theorem sameAt_lookup {members others : List (String × Value)}
    (hmembers : (Members.keys members).Nodup)
    (h : (obj members).same (obj others) = true) (name : String) :
    SameAt (members.lookup name) (others.lookup name) := by
  obtain ⟨hlength, heach⟩ := same_obj_iff.1 h
  cases hv : members.lookup name with
  | some v =>
    obtain ⟨w, hw, hsame⟩ := heach _ (Members.mem_of_lookup hv)
    rw [hw]
    exact .some hsame
  | none =>
    cases hw : others.lookup name with
    | none => exact .none
    | some w =>
      have hsub : ∀ key ∈ Members.keys members, key ∈ Members.keys others := by
        intro key hkey
        obtain ⟨v, hv⟩ := Members.mem_keys_iff.1 hkey
        obtain ⟨w, hw, -⟩ := heach _ (Members.mem_of_lookup hv)
        exact Members.mem_keys_iff.2 ⟨w, hw⟩
      have hmem := Members.mem_keys_of_subset hmembers (Nat.le_of_eq hlength.symm) hsub
        (Members.mem_keys_iff.2 ⟨w, hw⟩)
      obtain ⟨v, hv'⟩ := Members.mem_keys_iff.1 hmem
      rw [hv] at hv'
      cases hv'

/-- A step leads to equal values in equal values. -/
theorem sameAt_step {a b : Value} (ha : a.IsProper) (h : a.same b = true) (t : Token) :
    SameAt (a.step? t) (b.step? t) := by
  cases hq : a.quantity? with
  | some p =>
    obtain ⟨q, hq', -⟩ := exists_quantity_of_same h hq
    rw [step?_of_quantity hq, step?_of_quantity hq']
    exact .none
  | none =>
    have hsurface := surface_eq_of_same h hq
    cases a with
    | arr items =>
      cases b with
      | arr others =>
        cases t with
        | index n => exact rel_getElem? (same_arr_iff.1 h) n
        | name s => exact .none
      | _ => cases hsurface
    | obj members =>
      cases b with
      | obj others =>
        cases t with
        | index n => exact .none
        | name s => exact sameAt_lookup ha.names h s
      | _ => cases hsurface
    | null =>
      cases b <;> cases hsurface
      cases t <;> exact .none
    | str s =>
      cases b <;> cases hsurface
      cases t <;> exact .none
    | _ => cases hq

/-- Equal values hold equal values at every path. -/
theorem sameAt_getAt {a b : Value} (ha : a.IsProper) (h : a.same b = true) (path : List Token) :
    SameAt (a.getAt path) (b.getAt path) := by
  induction path generalizing a b with
  | nil => exact .some h
  | cons t rest ih =>
    have hstep := sameAt_step ha h t
    rw [getAt, getAt]
    cases hv : a.step? t with
    | none =>
      rw [hv] at hstep
      rw [eq_none_of_sameAt hstep]
      exact .none
    | some v =>
      rw [hv] at hstep
      obtain ⟨w, hw, hsame⟩ := exists_of_sameAt' hstep
      rw [hw]
      exact ih (ha.step hv) hsame

/-- Alike values hold the same numbers. -/
theorem Alike.getAt_number {a b v : Value} {path : List Token} (h : a.Alike b)
    (hv : a.getAt path = some v) (hnumber : v.quantity?.isSome = true) :
    b.getAt path = some v := by
  have hpath := h path
  rw [hv] at hpath
  obtain ⟨w, hw, hsurface⟩ := Option.map_eq_some_iff.1 hpath.symm
  rw [hw]
  cases v with
  | bool b => cases w <;> cases hsurface; rfl
  | int n => cases w <;> cases hsurface; rfl
  | float x => cases w <;> cases hsurface; rfl
  | _ => cases hnumber

/-- Equal values are alike exactly if their numbers are the same: all that equality takes for equal
beyond that are numbers of different kinds. -/
theorem alike_iff_of_same {a b : Value} (ha : a.IsProper) (h : a.same b = true) :
    a.Alike b ↔
      ∀ path v, a.getAt path = some v → v.quantity?.isSome = true → b.getAt path = some v := by
  constructor
  · intro halike path v hv hnumber
    exact halike.getAt_number hv hnumber
  · intro hnumbers path
    have hpath := sameAt_getAt ha h path
    cases hv : a.getAt path with
    | none =>
      rw [hv] at hpath
      rw [eq_none_of_sameAt hpath]
    | some v =>
      rw [hv] at hpath
      obtain ⟨w, hw, hsame⟩ := exists_of_sameAt' hpath
      cases hq : v.quantity? with
      | some p => rw [hnumbers path v hv (by rw [hq]; rfl)]
      | none => rw [hw, Option.map_some, Option.map_some, surface_eq_of_same hsame hq]

end Value

end ReminderFlow
