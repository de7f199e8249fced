import ReminderFlow.Path
import ReminderFlow.Proofs.Json.Number

namespace ReminderFlow

namespace Text

theorem isDigit_of_isDigit {c : Char} (h : c.isDigit = true) : isDigit c = true := by
  rw [isDigit, digitValue?_of_isDigit h]
  rfl

end Text

namespace Path

/-- The text is empty, or its first character belongs to no name. -/
def EndsName (rest : List Char) : Prop := ∀ c, rest.head? = some c → isNameChar c = false

theorem dropWhile_of_ends {p : Char → Bool} {taken rest : List Char}
    (htaken : ∀ c ∈ taken, p c = true) (hrest : ∀ c, rest.head? = some c → p c = false) :
    (taken ++ rest).dropWhile p = rest := by
  rw [List.dropWhile_append_of_pos htaken]
  cases rest with
  | nil => rfl
  | cons c rest => rw [List.dropWhile_cons_of_neg (by simp [hrest c rfl])]

/-- What is taken from a text is followed by a character of another kind. -/
theorem exists_taken {p : Char → Bool} {s rest : List Char} {c : Char}
    (h : s.dropWhile p = c :: rest) :
    s = s.takeWhile p ++ c :: rest ∧ (s.takeWhile p).all p = true ∧ p c = false := by
  have hall : (s.takeWhile p).all p = true := List.all_takeWhile
  have hstop : p c = false := by
    have hhead := List.head?_dropWhile_not p s
    rw [h] at hhead
    simpa using hhead
  refine ⟨?_, hall, hstop⟩
  rw [← h, List.takeWhile_append_dropWhile]

namespace Segment

instance : DecidablePred WellFormed
  | dotted name => inferInstanceAs (Decidable (name ≠ [] ∧ name.all isNameChar = true))
  | index digits => inferInstanceAs (Decidable (digits ≠ [] ∧ digits.all Text.isDigit = true))
  | quoted mark name =>
    inferInstanceAs (Decidable ((mark = '\'' ∨ mark = '"') ∧ mark ∉ name))

/-- What is read as a segment is well formed, and stands at the start of the text. -/
theorem of_segment? {s rest : List Char} {g : Segment} (h : segment? s = some (g, rest)) :
    g.WellFormed ∧ s = g.write ++ rest := by
  unfold segment? at h
  split at h
  · rename_i more
    dsimp only at h
    split at h
    · cases h
    · rename_i hname
      cases h
      have hall : (more.takeWhile isNameChar).all isNameChar = true := List.all_takeWhile
      refine ⟨⟨by simpa using hname, hall⟩, ?_⟩
      simp [write]
  · rename_i mark more
    split at h
    · rename_i hmark
      split at h
      · rename_i closing after hafter
        cases h
        obtain ⟨hsplit, hfree, hstop⟩ := exists_taken hafter
        have hclosing : closing = mark := by simpa using hstop
        have hmem : mark ∉ more.takeWhile (· ≠ mark) := by
          intro hmem
          simpa using List.all_eq_true.1 hfree mark hmem
        refine ⟨⟨hmark, hmem⟩, ?_⟩
        rw [hclosing] at hsplit
        simp only [write, List.cons_append, List.append_assoc, List.nil_append]
        exact congrArg (fun t => '[' :: mark :: t) hsplit
      · cases h
    · dsimp only at h
      split at h
      · rename_i after hafter
        split at h
        · cases h
        · rename_i hdigits
          cases h
          obtain ⟨hsplit, hall, -⟩ := exists_taken hafter
          refine ⟨⟨by simpa using hdigits, hall⟩, ?_⟩
          simp only [write, List.cons_append, List.append_assoc, List.nil_append]
          exact congrArg ('[' :: ·) hsplit
      · cases h
  · cases h

theorem segment?_dotted {name : List Char} (h : (dotted name).WellFormed) {rest : List Char}
    (hrest : EndsName rest) : segment? ((dotted name).write ++ rest) = some (dotted name, rest) := by
  obtain ⟨hne, hall⟩ := h
  have hchars : ∀ c ∈ name, isNameChar c = true := List.all_eq_true.1 hall
  simp only [write, List.cons_append, segment?, Json.takeWhile_of_ends hchars hrest,
    dropWhile_of_ends hchars hrest]
  simp [hne]

theorem segment?_index {digits : List Char} (h : (index digits).WellFormed) (rest : List Char) :
    segment? ((index digits).write ++ rest) = some (index digits, rest) := by
  obtain ⟨hne, hall⟩ := h
  have hchars : ∀ c ∈ digits, Text.isDigit c = true := List.all_eq_true.1 hall
  have hends : ∀ c, (']' :: rest).head? = some c → Text.isDigit c = false := by
    intro c hc
    obtain rfl := Option.some.inj hc
    decide
  have htake := Json.takeWhile_of_ends hchars hends
  have hdrop := dropWhile_of_ends hchars hends
  cases digits with
  | nil => exact absurd rfl hne
  | cons d more =>
    have hd : Text.isDigit d = true := hchars d List.mem_cons_self
    have hmark : ¬(d = '\'' ∨ d = '"') := by
      intro hmark
      rcases hmark with rfl | rfl
      · exact absurd hd (by decide)
      · exact absurd hd (by decide)
    simp only [List.cons_append] at htake hdrop
    simp only [write, List.cons_append, List.append_assoc, List.nil_append, segment?, hmark,
      if_false, htake, hdrop, List.isEmpty_cons, Bool.false_eq_true]

theorem segment?_quoted {mark : Char} {name : List Char} (h : (quoted mark name).WellFormed)
    (rest : List Char) :
    segment? ((quoted mark name).write ++ rest) = some (quoted mark name, rest) := by
  obtain ⟨hmark, hfree⟩ := h
  have hchars : ∀ c ∈ name, (decide (c ≠ mark)) = true := by
    intro c hc
    exact decide_eq_true fun heq => hfree (heq ▸ hc)
  have hends : ∀ c, (mark :: ']' :: rest).head? = some c → (decide (c ≠ mark)) = false := by
    intro c hc
    obtain rfl := Option.some.inj hc
    simp
  simp only [write, List.cons_append, List.append_assoc, List.nil_append, segment?, hmark,
    if_true, Json.takeWhile_of_ends hchars hends, dropWhile_of_ends hchars hends]

/-- A segment that was written is read again, if what follows does not go on with its name. -/
theorem segment?_write {g : Segment} (h : g.WellFormed) {rest : List Char} (hrest : EndsName rest) :
    segment? (g.write ++ rest) = some (g, rest) := by
  cases g with
  | dotted name => exact segment?_dotted h hrest
  | index digits => exact segment?_index h rest
  | quoted mark name => exact segment?_quoted h rest

/-- Where no segment is read, none stands. -/
theorem not_prefix_of_segment? {s : List Char} (h : segment? s = none) {g : Segment}
    (hg : g.WellFormed) : ¬g.write <+: s := by
  intro hprefix
  obtain ⟨rest, rfl⟩ := hprefix
  cases g with
  | dotted name =>
    obtain ⟨hne, hall⟩ := hg
    cases name with
    | nil => exact hne rfl
    | cons c more =>
      have hc : isNameChar c = true := List.all_eq_true.1 hall c List.mem_cons_self
      simp [write, segment?, hc] at h
  | index digits =>
    rw [segment?_index hg rest] at h
    cases h
  | quoted mark name =>
    rw [segment?_quoted hg rest] at h
    cases h

/-- A segment starts with a point or a bracket, so that a name ends before it. -/
theorem endsName_write (g : Segment) (rest : List Char) : EndsName (g.write ++ rest) := by
  intro c hc
  have hfirst : c = '.' ∨ c = '[' := by
    cases g with
    | dotted name => exact .inl (Option.some.inj hc).symm
    | _ => exact .inr (Option.some.inj hc).symm
  rcases hfirst with rfl | rfl <;> rfl

theorem endsName_flatMap_write (gs : List Segment) : EndsName (gs.flatMap write) := by
  cases gs with
  | nil => intro c hc; cases hc
  | cons g more => exact endsName_write g (more.flatMap write)

end Segment

/-- The segments in the order in which they stand in a text, behind the root. -/
def Spells (gs : List Segment) (text : String) : Prop :=
  (∀ g ∈ gs, g.WellFormed) ∧ text.toList = '$' :: gs.flatMap Segment.write

/-- Segments can be read in one way only. -/
theorem flatMap_write_injective {gs others : List Segment} (hgs : ∀ g ∈ gs, g.WellFormed)
    (hothers : ∀ g ∈ others, g.WellFormed)
    (h : gs.flatMap Segment.write = others.flatMap Segment.write) : gs = others := by
  induction gs generalizing others with
  | nil =>
    cases others with
    | nil => rfl
    | cons g more => cases g <;> cases h
  | cons g rest ih =>
    obtain ⟨hg, hrest⟩ := List.forall_mem_cons.1 hgs
    have hread := Segment.segment?_write hg (Segment.endsName_flatMap_write rest)
    cases others with
    | nil => cases g <;> cases h
    | cons g' more =>
      obtain ⟨hg', hmore⟩ := List.forall_mem_cons.1 hothers
      have hread' := Segment.segment?_write hg' (Segment.endsName_flatMap_write more)
      rw [List.flatMap_cons, List.flatMap_cons] at h
      rw [h, hread'] at hread
      obtain ⟨rfl, htail⟩ := Prod.mk.inj (Option.some.inj hread)
      rw [ih hrest hmore htail.symm]

/-- How reading leaves the grammar: the text up to there is made of readable segments, and then none
follows, or an index that is too long. -/
inductive Stops (text : String) : Nat → List Char → PathError → Prop
  | malformed {offset : Nat} {gs : List Segment} {rest : List Char}
      (before : ∀ g ∈ gs, g.WellFormed ∧ g.readable = true) (more : rest ≠ [])
      (none : ∀ g : Segment, g.WellFormed → ¬g.write <+: rest) :
      Stops text offset (gs.flatMap Segment.write ++ rest)
        (.malformed text (offset + (gs.flatMap Segment.write).length))
  | indexTooLong {offset : Nat} {gs : List Segment} {digits rest : List Char}
      (before : ∀ g ∈ gs, g.WellFormed ∧ g.readable = true)
      (index : (Segment.index digits).WellFormed) (long : Text.wholeLimit < digits.length) :
      Stops text offset (gs.flatMap Segment.write ++ ((Segment.index digits).write ++ rest))
        (.indexTooLong digits.length)

/-- A readable segment in front does not stop anything. -/
theorem Stops.cons {text : String} {offset : Nat} {s : List Char} {e : PathError} {g : Segment}
    (hg : g.WellFormed ∧ g.readable = true) (h : Stops text (offset + g.write.length) s e) :
    Stops text offset (g.write ++ s) e := by
  cases h with
  | malformed before more none =>
    rename_i gs rest
    have hstops := @Stops.malformed text offset (g :: gs) rest
      (List.forall_mem_cons.2 ⟨hg, before⟩) more none
    rw [List.flatMap_cons, List.append_assoc, List.length_append, ← Nat.add_assoc] at hstops
    exact hstops
  | indexTooLong before index long =>
    rename_i gs digits rest
    have hstops := @Stops.indexTooLong text offset (g :: gs) digits rest
      (List.forall_mem_cons.2 ⟨hg, before⟩) index long
    rw [List.flatMap_cons, List.append_assoc] at hstops
    exact hstops

/-- Only an index has digits to be counted. -/
theorem exists_digits {g : Segment} (h : g.readable = false) :
    ∃ digits, g = .index digits ∧ Text.wholeLimit < digits.length := by
  cases g with
  | index digits =>
    have hlong : ¬digits.length ≤ Text.wholeLimit := of_decide_eq_false h
    exact ⟨digits, rfl, Nat.lt_of_not_le hlong⟩
  | _ => simp [Segment.readable, Segment.digitCount] at h

/-- One step of reading: a segment, and what is read behind it. -/
theorem segments_write {text : String} {g : Segment} (hg : g.WellFormed) {rest : List Char}
    (hrest : segment? (g.write ++ rest) = some (g, rest)) (offset : Nat) :
    segments text offset (g.write ++ rest) =
      if g.readable then (segments text (offset + g.write.length) rest).map (g :: ·)
      else .error (.indexTooLong g.digitCount) := by
  obtain ⟨c, cs, hcons⟩ : ∃ c cs, g.write ++ rest = c :: cs := by
    cases g <;> exact ⟨_, _, rfl⟩
  have hlength : (c :: cs).length - rest.length = g.write.length := by
    rw [← hcons, List.length_append, Nat.add_sub_cancel]
  rw [hcons] at hrest ⊢
  rw [segments]
  split
  · rename_i hnone
    rw [hrest] at hnone
    cases hnone
  · rename_i g' rest' hsome
    rw [hrest] at hsome
    cases hsome
    rw [hlength]

/-- Readable segments are read as they were written. -/
theorem segments_flatMap_write {text : String} {gs : List Segment}
    (h : ∀ g ∈ gs, g.WellFormed ∧ g.readable = true) (offset : Nat) :
    segments text offset (gs.flatMap Segment.write) = .ok gs := by
  induction gs generalizing offset with
  | nil => rw [List.flatMap_nil, segments]
  | cons g rest ih =>
    obtain ⟨hg, hrest⟩ := List.forall_mem_cons.1 h
    have hread := Segment.segment?_write hg.1 (Segment.endsName_flatMap_write rest)
    rw [List.flatMap_cons, segments_write hg.1 hread, if_pos hg.2, ih hrest]
    rfl

/-- Reading stops at the first index that is too long. -/
theorem segments_of_long {text : String} {gs : List Segment} (hgs : ∀ g ∈ gs, g.WellFormed)
    (hlong : ∃ g ∈ gs, g.readable = false) (offset : Nat) :
    ∃ digits, Text.wholeLimit < digits ∧
      segments text offset (gs.flatMap Segment.write) = .error (.indexTooLong digits) := by
  induction gs generalizing offset with
  | nil =>
    obtain ⟨_, hg, -⟩ := hlong
    cases hg
  | cons g rest ih =>
    obtain ⟨hg, hrest⟩ := List.forall_mem_cons.1 hgs
    have hread := Segment.segment?_write hg (Segment.endsName_flatMap_write rest)
    rw [List.flatMap_cons, segments_write hg hread]
    cases hreadable : g.readable with
    | false =>
      obtain ⟨digits, rfl, hdigits⟩ := exists_digits hreadable
      exact ⟨digits.length, hdigits, rfl⟩
    | true =>
      obtain ⟨g', hmem, hg'⟩ := hlong
      rcases List.mem_cons.1 hmem with rfl | hmem
      · rw [hreadable] at hg'
        cases hg'
      · obtain ⟨digits, hdigits, herror⟩ := ih hrest ⟨g', hmem, hg'⟩ (offset + g.write.length)
        exact ⟨digits, hdigits, by rw [if_pos rfl, herror]; rfl⟩

/-- Reading either comes to the end, or tells how it left the grammar. -/
theorem segments_cases (text : String) (offset : Nat) (s : List Char) :
    (∃ gs, (∀ g ∈ gs, g.WellFormed ∧ g.readable = true) ∧ s = gs.flatMap Segment.write ∧
      segments text offset s = .ok gs) ∨
    ∃ e, segments text offset s = .error e ∧ Stops text offset s e := by
  induction hn : s.length using Nat.strong_induction_on generalizing offset s with
  | _ n ih =>
    cases hs : s with
    | nil => exact .inl ⟨[], by simp, rfl, by rw [segments]⟩
    | cons c cs =>
      rw [← hs]
      cases hfirst : segment? s with
      | none =>
        refine .inr ⟨.malformed text offset, ?_, ?_⟩
        · rw [hs] at hfirst ⊢
          rw [segments]
          split
          · rfl
          · rename_i hsome
            rw [hfirst] at hsome
            cases hsome
        · have hne : s ≠ [] := by simp [hs]
          have hnone : ∀ g : Segment, g.WellFormed → ¬g.write <+: s :=
            fun g hg => Segment.not_prefix_of_segment? hfirst hg
          exact @Stops.malformed text offset [] s (by simp) hne hnone
      | some found =>
        obtain ⟨g, rest⟩ := found
        obtain ⟨hg, hsplit⟩ := Segment.of_segment? hfirst
        have hless : rest.length < n := hn ▸ length_of_segment? hfirst
        rw [hsplit] at hfirst ⊢
        rw [segments_write hg hfirst]
        cases hreadable : g.readable with
        | false =>
          obtain ⟨digits, rfl, hlong⟩ := exists_digits hreadable
          exact .inr ⟨_, rfl, @Stops.indexTooLong text offset [] digits rest (by simp) hg hlong⟩
        | true =>
          rw [if_pos rfl]
          rcases ih rest.length hless (offset + g.write.length) rest rfl with
            ⟨gs, hgs, hrest, hread⟩ | ⟨e, hread, hstops⟩
          · rw [hread]
            refine .inl ⟨g :: gs, List.forall_mem_cons.2 ⟨⟨hg, hreadable⟩, hgs⟩, ?_, rfl⟩
            rw [List.flatMap_cons, ← hrest]
          · rw [hread]
            exact .inr ⟨e, rfl, hstops.cons ⟨hg, hreadable⟩⟩

/-- A text that does not start with the root, or that leaves the grammar behind it. -/
def Refuses (text : String) (e : PathError) : Prop :=
  (text.toList.head? ≠ some '$' ∧ e = .unrooted (.str text)) ∨
    ∃ rest, text.toList = '$' :: rest ∧ Stops text 1 rest e

theorem parse_of_toList {text : String} {rest : List Char} (h : text.toList = '$' :: rest) :
    parse text = (segments text 1 rest).map (·.map Segment.token) := by
  simp only [parse, h]

theorem parse_of_unrooted {text : String} (h : text.toList.head? ≠ some '$') :
    parse text = .error (.unrooted (.str text)) := by
  unfold parse
  split
  · rename_i rest hrest
    exact absurd (by rw [hrest]; rfl) h
  · rfl

theorem parse_of_spells {gs : List Segment} {text : String} (h : Spells gs text)
    (hreadable : ∀ g ∈ gs, g.readable = true) : parse text = .ok (gs.map Segment.token) := by
  have hgs : ∀ g ∈ gs, g.WellFormed ∧ g.readable = true := fun g hg => ⟨h.1 g hg, hreadable g hg⟩
  rw [parse_of_toList h.2, segments_flatMap_write hgs]
  rfl

theorem parse_of_long {gs : List Segment} {text : String} (h : Spells gs text)
    (hlong : ∃ g ∈ gs, g.readable = false) :
    ∃ digits, Text.wholeLimit < digits ∧ parse text = .error (.indexTooLong digits) := by
  obtain ⟨digits, hdigits, herror⟩ := segments_of_long h.1 hlong 1
  exact ⟨digits, hdigits, by rw [parse_of_toList h.2, herror]; rfl⟩

/-- A text is spelt by readable segments, or it is refused. -/
theorem parse_cases (text : String) :
    (∃ gs, Spells gs text ∧ (∀ g ∈ gs, g.readable = true) ∧
      parse text = .ok (gs.map Segment.token)) ∨
    ∃ e, parse text = .error e ∧ Refuses text e := by
  by_cases hroot : text.toList.head? = some '$'
  · obtain ⟨rest, hrest⟩ := List.head?_eq_some_iff.1 hroot
    rcases segments_cases text 1 rest with ⟨gs, hgs, hsplit, -⟩ | ⟨e, hread, hstops⟩
    · have hspells : Spells gs text := ⟨fun g hg => (hgs g hg).1, by rw [hrest, hsplit]⟩
      have hreadable : ∀ g ∈ gs, g.readable = true := fun g hg => (hgs g hg).2
      exact .inl ⟨gs, hspells, hreadable, parse_of_spells hspells hreadable⟩
    · refine .inr ⟨e, ?_, .inr ⟨rest, hrest, hstops⟩⟩
      rw [parse_of_toList hrest, hread]
      rfl
  · exact .inr ⟨_, parse_of_unrooted hroot, .inl ⟨hroot, rfl⟩⟩

theorem Spells.unique {gs others : List Segment} {text : String} (h : Spells gs text)
    (h' : Spells others text) : gs = others := by
  apply flatMap_write_injective h.1 h'.1
  have htext := h.2.symm.trans h'.2
  exact (List.cons.inj htext).2

end Path

namespace Token

open ReminderFlow.Path

/-- A segment that stands for a token: an index in plain digits, or a name between quotes that it
does not hold. -/
inductive Writes : Token → Segment → Prop
  | index {n : Nat} (short : (Nat.toDigits 10 n).length ≤ Text.wholeLimit) :
      Writes (.index n) (.index (Nat.toDigits 10 n))
  | name {s : String} {mark : Char} (quote : mark = '\'' ∨ mark = '"') (free : mark ∉ s.toList) :
      Writes (.name s) (.quoted mark s.toList)

/-- An index that can be read, or a name that does not hold both kinds of quotes. -/
def IsWritable : Token → Prop
  | index n => (Nat.toDigits 10 n).length ≤ Text.wholeLimit
  | name s => '\'' ∉ s.toList ∨ '"' ∉ s.toList

theorem IsWritable.exists_writes {t : Token} (h : t.IsWritable) : ∃ g, t.Writes g := by
  cases t with
  | index n => exact ⟨_, .index h⟩
  | name s =>
    rcases h with hsingle | hdouble
    · exact ⟨_, .name (.inl rfl) hsingle⟩
    · exact ⟨_, .name (.inr rfl) hdouble⟩

theorem Writes.wellFormed {t : Token} {g : Segment} (h : t.Writes g) : g.WellFormed := by
  cases h with
  | index short =>
    refine ⟨Nat.toDigits_ne_nil, List.all_eq_true.2 fun c hc => ?_⟩
    exact Text.isDigit_of_isDigit (Text.isDigit_of_mem_toDigits hc)
  | name quote free => exact ⟨quote, free⟩

theorem Writes.readable {t : Token} {g : Segment} (h : t.Writes g) : g.readable = true := by
  cases h with
  | index short => exact decide_eq_true short
  | name quote free => rfl

theorem Writes.token_eq {t : Token} {g : Segment} (h : t.Writes g) : g.token = t := by
  cases h with
  | index short => rw [Segment.token, Text.digitsValue_toDigits]
  | name quote free => rw [Segment.token, String.ofList_toList]

theorem exists_writes {tokens : List Token} (h : ∀ t ∈ tokens, t.IsWritable) :
    ∃ gs, List.Forall₂ Writes tokens gs := by
  induction tokens with
  | nil => exact ⟨[], .nil⟩
  | cons t rest ih =>
    obtain ⟨ht, hrest⟩ := List.forall_mem_cons.1 h
    obtain ⟨g, hg⟩ := ht.exists_writes
    obtain ⟨gs, hgs⟩ := ih hrest
    exact ⟨g :: gs, .cons hg hgs⟩

theorem map_token_of_writes {tokens : List Token} {gs : List Segment}
    (h : List.Forall₂ Writes tokens gs) : gs.map Segment.token = tokens := by
  induction h with
  | nil => rfl
  | cons hfirst hrest ih => rw [List.map_cons, hfirst.token_eq, ih]

theorem forall_of_writes {tokens : List Token} {gs : List Segment}
    (h : List.Forall₂ Writes tokens gs) : ∀ g ∈ gs, g.WellFormed ∧ g.readable = true := by
  induction h with
  | nil => simp
  | cons hfirst hrest ih =>
    exact List.forall_mem_cons.2 ⟨⟨hfirst.wellFormed, hfirst.readable⟩, ih⟩

end Token

namespace Path

/-- Reading accepts exactly the grammar. A text is a path if and only if it is the root with
well-formed segments behind it whose indices are short enough to be numbers; the tokens are those of
the segments. There is no other way to split it into segments. Every other text is refused where it
leaves the grammar, or at the index that is too long. And what tokens are written as, index by index
and name by name, is read as these tokens. -/
theorem parses_grammar :
    (∀ text tokens, parse text = .ok tokens ↔
      ∃ gs, Spells gs text ∧ (∀ g ∈ gs, g.readable = true) ∧ gs.map Segment.token = tokens) ∧
    (∀ text gs others, Spells gs text → Spells others text → gs = others) ∧
    (∀ text e, parse text = .error e → Refuses text e) ∧
    (∀ tokens : List Token, (∀ t ∈ tokens, t.IsWritable) → ∃ gs, List.Forall₂ Token.Writes tokens gs) ∧
    ∀ tokens gs text, List.Forall₂ Token.Writes tokens gs →
      text.toList = '$' :: gs.flatMap Segment.write → parse text = .ok tokens := by
  refine ⟨fun text tokens => ⟨fun h => ?_, fun h => ?_⟩, fun text gs others h h' => h.unique h',
    fun text e h => ?_, fun tokens h => Token.exists_writes h, fun tokens gs text hwrites htext => ?_⟩
  · rcases parse_cases text with ⟨gs, hspells, hreadable, hread⟩ | ⟨e, hread, -⟩
    · exact ⟨gs, hspells, hreadable, Except.ok.inj (hread.symm.trans h)⟩
    · rw [hread] at h
      cases h
  · obtain ⟨gs, hspells, hreadable, htokens⟩ := h
    rw [parse_of_spells hspells hreadable, htokens]
  · rcases parse_cases text with ⟨gs, -, -, hread⟩ | ⟨e', hread, hrefuses⟩
    · rw [hread] at h
      cases h
    · rw [hread] at h
      cases h
      exact hrefuses
  · have hgs := Token.forall_of_writes hwrites
    have hspells : Spells gs text := ⟨fun g hg => (hgs g hg).1, htext⟩
    rw [parse_of_spells hspells fun g hg => (hgs g hg).2, Token.map_token_of_writes hwrites]

/-- A name behind a point, an index in the digits of another script, and a name that holds a quote
and brackets; and a text that is left at a space. -/
theorem parses_grammar_mixed :
    Spells [.dotted ['a', '-'], .index ['\u0661', '\u0662'], .quoted '\'' ['"', ']', '[']]
        "$.a-[\u0661\u0662]['\"][']" ∧
      parse "$.a-[\u0661\u0662]['\"][']" = .ok [.name "a-", .index 12, .name "\"]["] ∧
      (∃ e, parse "$.a b" = .error e ∧ Refuses "$.a b" e) ∧
      List.Forall₂ Token.Writes [.name "it's", .index 7] [.quoted '"' ['i', 't', '\'', 's'], .index ['7']] ∧
      parse "$[\"it's\"][7]" = .ok [.name "it's", .index 7] := by
  have hspells : Spells [.dotted ['a', '-'], .index ['\u0661', '\u0662'], .quoted '\'' ['"', ']', '[']]
      "$.a-[\u0661\u0662]['\"][']" := by
    exact ⟨by decide +kernel, rfl⟩
  obtain ⟨haccepts, -, hrefuses, -, hreads⟩ := parses_grammar
  have hwrites : List.Forall₂ Token.Writes [.name "it's", .index 7]
      [.quoted '"' ['i', 't', '\'', 's'], .index ['7']] :=
    .cons (.name (.inr rfl) (by decide)) (.cons (.index (by decide)) .nil)
  obtain ⟨e, he⟩ : ∃ e, parse "$.a b" = .error e := by
    cases h : parse "$.a b" with
    | error e => exact ⟨e, rfl⟩
    | ok tokens =>
      have hnone : (parse "$.a b").toOption = none := by decide +kernel
      rw [h] at hnone
      cases hnone
  refine ⟨hspells, ?_, ⟨e, he, hrefuses _ _ he⟩, hwrites, hreads _ _ _ hwrites rfl⟩
  exact (haccepts _ _).2 ⟨_, hspells, by decide, by decide +kernel⟩

end Path

end ReminderFlow
