import ReminderFlow.Proofs.Document.Alike
import ReminderFlow.Proofs.Json.RoundTrip
import ReminderFlow.Proofs.Number.Shortest

namespace ReminderFlow

namespace Value

theorem sortKeys_arr (items : List Value) : (arr items).sortKeys = arr (items.map sortKeys) := by
  rw [sortKeys]
  congr 1
  induction items with
  | nil => rfl
  | cons v rest ih => rw [sortKeysItems, ih, List.map_cons]

theorem sortKeysMembers_eq_map (members : List (String × Value)) :
    sortKeysMembers members = members.map fun m => (m.1, m.2.sortKeys) := by
  induction members with
  | nil => rfl
  | cons m rest ih =>
    obtain ⟨k, v⟩ := m
    rw [sortKeysMembers, ih, List.map_cons]

/-- The members of an object as they stand in its sorted form. -/
def sortedMembers (members : List (String × Value)) : List (String × Value) :=
  (members.map fun m => (m.1, m.2.sortKeys)).mergeSort fun a b => a.1 ≤ b.1

theorem sortKeys_obj (members : List (String × Value)) :
    (obj members).sortKeys = obj (sortedMembers members) := by
  rw [sortKeys, sortKeysMembers_eq_map]
  rfl

theorem perm_sortedMembers (members : List (String × Value)) :
    (sortedMembers members).Perm (members.map fun m => (m.1, m.2.sortKeys)) :=
  List.mergeSort_perm _ _

theorem pairwise_sortedMembers (members : List (String × Value)) :
    (sortedMembers members).Pairwise fun a b => a.1 ≤ b.1 := by
  have hsorted : (sortedMembers members).Pairwise fun a b => decide (a.1 ≤ b.1) = true := by
    apply List.pairwise_mergeSort
    · intro a b c hab hbc
      rw [decide_eq_true_eq] at *
      exact String.le_trans hab hbc
    · intro a b
      simpa using String.le_total a.1 b.1
  exact hsorted.imp fun h => of_decide_eq_true h

theorem nodup_keys_sortedMembers {members : List (String × Value)}
    (h : (Members.keys members).Nodup) : (Members.keys (sortedMembers members)).Nodup := by
  have hkeys := (perm_sortedMembers members).map Prod.fst
  rw [← Members.keys_map sortKeys members] at h
  exact hkeys.nodup_iff.2 h

theorem lookup_sortedMembers {members : List (String × Value)}
    (h : (Members.keys members).Nodup) (name : String) :
    (sortedMembers members).lookup name = (members.lookup name).map sortKeys := by
  have hperm := Members.lookup_of_perm (nodup_keys_sortedMembers h) (perm_sortedMembers members) name
  rw [hperm, Members.lookup_map]

theorem surface_sortKeys (v : Value) : v.sortKeys.surface = v.surface := by
  cases v with
  | arr items => rw [sortKeys_arr, surface, surface]
  | obj members => rw [sortKeys_obj, surface, surface]
  | _ => rfl

theorem isProper_sortKeys {v : Value} (h : v.IsProper) : v.sortKeys.IsProper := by
  induction h with
  | arr each ih =>
    rw [sortKeys_arr]
    refine .arr fun w hw => ?_
    obtain ⟨v, hv, rfl⟩ := List.mem_map.1 hw
    exact ih v hv
  | obj names each ih =>
    rename_i members
    rw [sortKeys_obj]
    refine .obj (nodup_keys_sortedMembers names) fun m hm => ?_
    obtain ⟨m', hm', rfl⟩ := List.mem_map.1 ((perm_sortedMembers members).mem_iff.1 hm)
    exact ih m' hm'
  | float finite => exact .float finite
  | null => exact .null
  | bool b => exact .bool b
  | int n => exact .int n
  | str s => exact .str s

/-- A step into the sorted form leads to the sorted form of what is there. -/
theorem step?_sortKeys {v : Value} (h : v.IsProper) (t : Token) :
    v.sortKeys.step? t = (v.step? t).map sortKeys := by
  cases v with
  | arr items =>
    rw [sortKeys_arr]
    cases t with
    | index n => exact List.getElem?_map
    | name s => rfl
  | obj members =>
    rw [sortKeys_obj]
    cases t with
    | index n => rfl
    | name s => exact lookup_sortedMembers h.names s
  | _ => cases t <;> rfl

theorem getAt_sortKeys {v : Value} (h : v.IsProper) (path : List Token) :
    v.sortKeys.getAt path = (v.getAt path).map sortKeys := by
  induction path generalizing v with
  | nil => rfl
  | cons t rest ih =>
    rw [getAt, getAt, step?_sortKeys h]
    cases hv : v.step? t with
    | none => rfl
    | some w => exact ih (h.step hv)

/-- A value and its sorted form are alike. -/
theorem alike_sortKeys {v : Value} (h : v.IsProper) : v.Alike v.sortKeys := by
  intro path
  rw [getAt_sortKeys h, Option.map_map]
  exact congrFun (congrArg _ (funext fun w => (surface_sortKeys w).symm)) _

theorem map_eq_map_of_forall₂ {α β : Type} {R : α → α → Prop} {f : α → β} {items others : List α}
    (h : List.Forall₂ R items others)
    (heach : ∀ v ∈ items, ∀ w ∈ others, R v w → f v = f w) : items.map f = others.map f := by
  induction h with
  | nil => rfl
  | cons hfirst hrest ih =>
    have hfirst' := heach _ List.mem_cons_self _ List.mem_cons_self hfirst
    have hrest' := ih fun v hv w hw => heach v (List.mem_cons_of_mem _ hv) w (List.mem_cons_of_mem _ hw)
    rw [List.map_cons, List.map_cons, hfirst', hrest']

/-- Sorted members are determined by what is found under their names. -/
theorem sortedMembers_eq {members others : List (String × Value)}
    (hmembers : (Members.keys members).Nodup) (hothers : (Members.keys others).Nodup)
    (h : ∀ name, (members.lookup name).map sortKeys = (others.lookup name).map sortKeys) :
    sortedMembers members = sortedMembers others := by
  have hnodup := nodup_keys_sortedMembers hmembers
  have hnodup' := nodup_keys_sortedMembers hothers
  have hfound (name : String) :
      (sortedMembers members).lookup name = (sortedMembers others).lookup name := by
    rw [lookup_sortedMembers hmembers, lookup_sortedMembers hothers, h]
  have hperm : (sortedMembers members).Perm (sortedMembers others) := by
    refine (List.perm_ext_iff_of_nodup hnodup.of_map hnodup'.of_map).2 fun m => ?_
    constructor
    · intro hm
      have hlookup := Members.lookup_of_mem hnodup hm
      exact Members.mem_of_lookup (hfound m.1 ▸ hlookup)
    · intro hm
      have hlookup := Members.lookup_of_mem hnodup' hm
      exact Members.mem_of_lookup (hfound m.1 ▸ hlookup)
  -- names that precede each other are one name, and there is one member of each
  have hantisymm : ∀ m m', m ∈ sortedMembers members → m' ∈ sortedMembers others →
      m.1 ≤ m'.1 → m'.1 ≤ m.1 → m = m' := by
    intro m m' hm hm' hle hle'
    exact List.inj_on_of_nodup_map hnodup' (hperm.mem_iff.1 hm) hm' (String.le_antisymm hle hle')
  exact hperm.eq_of_pairwise hantisymm (pairwise_sortedMembers members)
    (pairwise_sortedMembers others)

/-- Alike values have the same sorted form. -/
theorem Alike.sortKeys_eq {a b : Value} (h : a.Alike b) (ha : a.IsProper) (hb : b.IsProper) :
    a.sortKeys = b.sortKeys := by
  have hsurface := h.surface_eq
  induction ha generalizing b with
  | arr each ih =>
    cases b with
    | arr others =>
      rw [sortKeys_arr, sortKeys_arr, map_eq_map_of_forall₂ h.items]
      intro v hv w hw halike
      exact ih v hv halike (hb.item w hw) halike.surface_eq
    | _ => cases hsurface
  | obj names each ih =>
    cases b with
    | obj others =>
      rw [sortKeys_obj, sortKeys_obj, sortedMembers_eq names hb.names]
      intro name
      cases hv : List.lookup name _ with
      | some v =>
        obtain ⟨w, hw, halike⟩ := h.member hv
        have hproper : w.IsProper := hb.member _ (Members.mem_of_lookup hw)
        have hsorted := ih _ (Members.mem_of_lookup hv) halike hproper halike.surface_eq
        rw [hw, Option.map_some, Option.map_some, hsorted]
      | none =>
        cases hw : others.lookup name with
        | none => rfl
        | some w =>
          obtain ⟨v, hv', -⟩ := h.symm.member hw
          rw [hv] at hv'
          cases hv'
    | _ => cases hsurface
  | _ =>
    cases b <;> cases hsurface
    rfl

theorem sortKeys_eq_iff {a b : Value} (ha : a.IsProper) (hb : b.IsProper) :
    a.sortKeys = b.sortKeys ↔ a.Alike b := by
  constructor
  · intro h
    have halike := alike_sortKeys ha
    rw [h] at halike
    exact halike.trans (alike_sortKeys hb).symm
  · intro h
    exact h.sortKeys_eq ha hb

theorem isShort_step {v w : Value} {t : Token} (h : v.isShort = true) (hw : v.step? t = some w) :
    w.isShort = true := by
  unfold step? at hw
  split at hw
  · exact allShort_iff.1 h w (List.mem_of_getElem? hw)
  · exact allShortMembers_iff.1 h _ (Members.mem_of_lookup hw)
  · cases hw

theorem isShort_getAt {v w : Value} {path : List Token} (h : v.isShort = true)
    (hw : v.getAt path = some w) : w.isShort = true := by
  induction path generalizing v with
  | nil =>
    cases hw
    exact h
  | cons t rest ih =>
    obtain ⟨child, hchild, hw⟩ := Option.bind_eq_some_iff.1 hw
    exact ih (isShort_step h hchild) hw

/-- Only the numbers in a value decide whether it can be written. -/
theorem isShort_iff {v : Value} (h : v.IsProper) :
    v.isShort = true ↔
      ∀ path w, v.getAt path = some w → w.quantity?.isSome = true → w.isShort = true := by
  constructor
  · intro hshort path w hw _
    exact isShort_getAt hshort hw
  · intro hall
    induction h with
    | int n => exact hall [] (.int n) rfl rfl
    | arr each ih =>
      refine allShort_iff.2 fun v hv => ih v hv fun path w hw => ?_
      obtain ⟨n, hn⟩ := List.mem_iff_getElem?.1 hv
      exact hall (.index n :: path) w (by rw [getAt, step?, hn]; exact hw)
    | obj names each ih =>
      refine allShortMembers_iff.2 fun m hm => ih m hm fun path w hw => ?_
      have hlookup := Members.lookup_of_mem names hm
      exact hall (.name m.1 :: path) w (by rw [getAt, step?, hlookup]; exact hw)
    | _ => rfl

/-- No double is as large as the whole numbers that cannot be written. -/
theorem natAbs_scaled_lt (x : Double) :
    x.scaled.natAbs < tenTo Text.wholeLimit * twoTo Double.unitExponent := by
  have hunits := Double.natAbs_scaled_le x (k := 2045) (by decide)
  have hexponent : 54 + 2045 = 1025 + Double.unitExponent := rfl
  rw [hexponent] at hunits
  exact Nat.lt_of_le_of_lt hunits (Double.twoTo_add_lt_tenTo_mul (by decide) (by decide))

/-- Whether a number can be written depends on its value alone. -/
theorem exists_place {v : Value} (h : v.IsProper) {p : Number} (hp : v.quantity? = some p) :
    ∃ units, p.place? = some (.at_ units) ∧ (v.isShort = true ↔
      units.natAbs < tenTo Text.wholeLimit * twoTo Double.unitExponent) := by
  have hpos : 0 < twoTo Double.unitExponent := Double.twoTo_pos _
  have hwhole (n : Int) : (n * (twoTo Double.unitExponent : Int)).natAbs =
      n.natAbs * twoTo Double.unitExponent := by
    rw [Int.natAbs_mul, Int.natAbs_natCast]
  cases h with
  | bool b =>
    cases hp
    refine ⟨_, rfl, ?_⟩
    have hone {n : Nat} (hn : n ≠ 0) : 1 < tenTo n := Nat.one_lt_pow hn (by omega)
    rw [hwhole, Nat.mul_lt_mul_right hpos]
    refine iff_of_true rfl ?_
    cases b
    · exact Double.tenTo_pos _
    · exact hone (by decide)
  | int n =>
    cases hp
    refine ⟨_, rfl, ?_⟩
    rw [hwhole, Nat.mul_lt_mul_right hpos, isShort, decide_eq_true_eq]
  | @float x finite =>
    cases hp
    cases x with
    | finite negative rank => exact ⟨_, rfl, iff_of_true rfl (natAbs_scaled_lt _)⟩
    | _ => cases finite
  | _ => cases hp

theorem isShort_iff_of_number {v w : Value} (hv : v.IsProper) (hw : w.IsProper)
    (h : v.same w = true) (hnumber : v.quantity?.isSome = true) :
    v.isShort = true ↔ w.isShort = true := by
  obtain ⟨p, hp⟩ := Option.isSome_iff_exists.1 hnumber
  obtain ⟨q, hq, hsame⟩ := exists_quantity_of_same h hp
  obtain ⟨units, hunits, hshort⟩ := exists_place hv hp
  obtain ⟨units', hunits', hshort'⟩ := exists_place hw hq
  have heq : units = units' := by simpa [Number.same, hunits, hunits'] using hsame
  rw [hshort, hshort', heq]

/-- Of two equal values both can be written or none can. -/
theorem isShort_eq_of_same {a b : Value} (ha : a.IsProper) (hb : b.IsProper)
    (h : a.same b = true) : a.isShort = b.isShort := by
  rw [Bool.eq_iff_iff, isShort_iff ha, isShort_iff hb]
  constructor
  · intro hall path w hw hnumber
    have hpath := sameAt_getAt ha h path
    rw [hw] at hpath
    obtain ⟨v, hv, hsame⟩ := exists_of_sameAt hpath
    rw [← isSome_quantity_of_same hsame] at hnumber
    exact (isShort_iff_of_number (ha.getAt hv) (hb.getAt hw) hsame hnumber).1
      (hall path v hv hnumber)
  · intro hall path v hv hnumber
    have hpath := sameAt_getAt ha h path
    rw [hv] at hpath
    obtain ⟨w, hw, hsame⟩ := exists_of_sameAt' hpath
    have hnumber' := isSome_quantity_of_same hsame ▸ hnumber
    exact (isShort_iff_of_number (ha.getAt hv) (hb.getAt hw) hsame hnumber).2
      (hall path w hw hnumber')

theorem isShort_sortKeys {v : Value} (h : v.IsProper) : v.sortKeys.isShort = v.isShort := by
  have hsorted := isProper_sortKeys h
  have hsame := (alike_sortKeys h).same h hsorted
  exact (isShort_eq_of_same h hsorted hsame).symm

end Value

namespace Document

theorem hashText?_eq_some_iff {doc : Document} {text : String} :
    doc.hashText? = some text ↔ doc.value.isShort = true ∧ doc.hashText = text := by
  rw [hashText?]
  split_ifs with hshort
  · simp [hshort]
  · simp [hshort]

/-- Documents are hashed by one text exactly if they are alike. -/
theorem hashText?_eq_iff_alike {a b : Document} (ha : a.IsProper) (hb : b.IsProper) {text : String}
    (h : a.hashText? = some text) : b.hashText? = some text ↔ a.value.Alike b.value := by
  obtain ⟨hshort, rfl⟩ := hashText?_eq_some_iff.1 h
  rw [hashText?_eq_some_iff, ← Value.sortKeys_eq_iff ha hb]
  constructor
  · rintro ⟨hshort', htext⟩
    have ha' := Value.isProper_sortKeys ha
    have hb' := Value.isProper_sortKeys hb
    rw [← Value.isShort_sortKeys ha] at hshort
    rw [← Value.isShort_sortKeys hb] at hshort'
    exact (Json.eq_of_compact_eq hb' hshort' ha' hshort htext).symm
  · intro hsorted
    refine ⟨?_, ?_⟩
    · rw [← Value.isShort_sortKeys hb, ← hsorted, Value.isShort_sortKeys ha]
      exact hshort
    · rw [hashText, hashText, Value.sortedText, Value.sortedText, hsorted]

/-- Documents that count as equal can both be hashed or neither can. If they can, they are hashed by
one text exactly if every number of the one, with true and false among the numbers, is found in the
other as it is: the order of members makes no difference, but one, one point zero and true are equal
and are written differently, and so are zero and minus zero. -/
theorem hashes_alike_iff_same_numbers {a b : Document} (ha : a.IsProper) (hb : b.IsProper)
    (h : a.same b = true) :
    (a.hashText? = none ↔ b.hashText? = none) ∧
      ∀ text, a.hashText? = some text → (b.hashText? = some text ↔
        ∀ path v, a.value.getAt path = some v → v.quantity?.isSome = true →
          b.value.getAt path = some v) := by
  refine ⟨?_, fun text htext => ?_⟩
  · rw [hashText?, hashText?, Value.isShort_eq_of_same ha hb h]
    split_ifs <;> simp
  · rw [hashText?_eq_iff_alike ha hb htext, Value.alike_iff_of_same ha h]

/-- An order of one piece, and the same one with its members the other way round and the count as a
double. -/
def ordered : Document := ⟨.obj [("count", .int 1), ("gift", .bool true)]⟩

def reordered : Document := ⟨.obj [("gift", .bool true), ("count", .float (Double.ofInt 1))]⟩

theorem hashes_alike_iff_same_numbers_reordered : ordered.same reordered = true ∧
    ∃ text, ordered.hashText? = some text ∧ reordered.hashText? ≠ some text := by
  have hfinite : (Double.ofInt 1).isFinite = true := by decide +kernel
  have hproper : ordered.IsProper := .obj (by decide) (by simpa using ⟨.int 1, .bool true⟩)
  have hproper' : reordered.IsProper :=
    .obj (by decide) (by simpa using ⟨.bool true, .float hfinite⟩)
  have hsame : ordered.same reordered = true := by decide +kernel
  have hshort : ordered.value.isShort = true := by decide +kernel
  have htext : ordered.hashText? = some ordered.hashText := by rw [hashText?, if_pos hshort]
  obtain ⟨-, hiff⟩ := hashes_alike_iff_same_numbers hproper hproper' hsame
  refine ⟨hsame, _, htext, fun htext' => ?_⟩
  -- the count is found in the second one, but not as it is in the first one
  have hcount := (hiff _ htext).1 htext' [.name "count"] (.int 1) rfl rfl
  have hfloat : reordered.value.getAt [.name "count"] = some (.float (Double.ofInt 1)) := rfl
  rw [hfloat] at hcount
  cases hcount

/-- One and one point zero are equal but are not hashed alike. -/
theorem not_always_hashed_alike : ¬∀ a b : Document, a.IsProper → b.IsProper →
    a.same b = true → a.hashText? = b.hashText? := by
  intro hall
  let one : Document := ⟨.int 1⟩
  let onePointZero : Document := ⟨.float (Double.ofInt 1)⟩
  have hproper : one.IsProper := .int 1
  have hproper' : onePointZero.IsProper := .float (by decide +kernel)
  have hshort : one.value.isShort = true := by decide +kernel
  have htext : one.hashText? = some one.hashText := by rw [hashText?, if_pos hshort]
  have heq := hall one onePointZero hproper hproper' (by decide +kernel)
  have halike := (hashText?_eq_iff_alike hproper hproper' htext).1 (heq ▸ htext)
  cases halike.surface_eq

end Document

end ReminderFlow
