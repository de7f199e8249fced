import ReminderFlow.Proofs.Json.Number
import ReminderFlow.Proofs.Json.Proper
import ReminderFlow.Proofs.Json.Text

namespace ReminderFlow.Json

open Text

def IsBlanks (s : List Char) : Prop := ∀ c ∈ s, isSpace c = true

/-- The text does not start with white space. -/
def StartsDark (s : List Char) : Prop := ∀ c, s.head? = some c → isSpace c = false

theorem startsDark_cons {c : Char} (h : isSpace c = false) (rest : List Char) :
    StartsDark (c :: rest) := by
  intro d hd
  obtain rfl := Option.some.inj hd
  exact h

theorem rest_skipSpace {at_ : Cursor} {blanks rest : List Char} (hblanks : IsBlanks blanks)
    (hrest : StartsDark rest) (hat : at_.rest = blanks ++ rest) : at_.skipSpace.rest = rest := by
  have htake : at_.rest.takeWhile isSpace = blanks := by
    rw [hat]
    exact takeWhile_of_ends hblanks hrest
  rw [Cursor.skipSpace, htake, Cursor.advance, hat, List.drop_left]

theorem rest_skipSpace_of_startsDark {at_ : Cursor} (h : StartsDark at_.rest) :
    at_.skipSpace.rest = at_.rest := by
  have hnone : IsBlanks [] := by simp [IsBlanks]
  exact rest_skipSpace hnone h rfl

theorem isBlanks_lineBreak (style : Style) (depth : Nat) : IsBlanks (style.lineBreak depth) := by
  intro c hc
  unfold Style.lineBreak at hc
  split at hc
  · cases hc
  · rcases List.mem_cons.1 hc with rfl | hc
    · rfl
    · rw [List.eq_of_mem_replicate hc]
      rfl

theorem exists_separator (style : Style) (depth : Nat) :
    ∃ blanks, style.separator depth = ',' :: blanks ∧ IsBlanks blanks := by
  unfold Style.separator
  split
  · refine ⟨[' '], rfl, fun c hc => ?_⟩
    rw [List.mem_singleton.1 hc]
    rfl
  · exact ⟨_, rfl, isBlanks_lineBreak style depth⟩

theorem endsNumber_cons {c : Char} (h : c.isDigit = false ∧ c ≠ '.' ∧ c ≠ 'e' ∧ c ≠ 'E')
    (rest : List Char) : EndsNumber (c :: rest) := by
  intro d hd
  obtain rfl := Option.some.inj hd
  exact h

theorem endsNumber_of_isBlanks {blanks : List Char} (h : IsBlanks blanks) {rest : List Char}
    (hrest : EndsNumber rest) : EndsNumber (blanks ++ rest) := by
  cases blanks with
  | nil => exact hrest
  | cons c blanks =>
    have hc := h c List.mem_cons_self
    refine endsNumber_cons ?_ _
    simp only [isSpace, Bool.or_eq_true, decide_eq_true_eq] at hc
    rcases hc with ((rfl | rfl) | rfl) | rfl <;> decide

theorem exists_bracketed (style : Style) (depth : Nat) (opening closing : Char)
    (content : List (List Char)) :
    ∃ more, bracketed style depth opening closing content = opening :: more := by
  cases content with
  | nil => exact ⟨_, rfl⟩
  | cons first rest => exact ⟨_, rfl⟩

/-- A character that may come first in the text of a value: no white space, no closing bracket of a
list and no mark of the byte order. -/
structure IsStart (c : Char) : Prop where
  dark : isSpace c = false
  opens : c ≠ ']'
  unmarked : c ≠ Char.ofNat 0xFEFF

theorem isStart_of_isDigit {c : Char} (h : c.isDigit = true) : IsStart c := by
  have hothers : [' ', '\t', '\n', '\r', ']', Char.ofNat 0xFEFF].all (fun d => !d.isDigit) = true := by
    decide
  have hne : c ∉ [' ', '\t', '\n', '\r', ']', Char.ofNat 0xFEFF] := by
    intro hmem
    have hc := List.all_eq_true.1 hothers c hmem
    rw [h] at hc
    cases hc
  simp only [List.mem_cons, List.not_mem_nil, or_false, not_or] at hne
  obtain ⟨hblank, htab, hline, hreturn, hbracket, hmark⟩ := hne
  exact ⟨by simp [isSpace, hblank, htab, hline, hreturn], hbracket, hmark⟩

theorem exists_signed_int (style : Style) (depth : Nat) (n : Int) :
    ∃ negative text, writeValue style depth (.int n) = signed negative text ∧ IsNumeral text :=
  ⟨_, _, toList_toString n, isNumeral_toDigits _⟩

theorem exists_signed_float (style : Style) (depth : Nat) {x : Double} (hx : x.isFinite = true) :
    ∃ negative text, writeValue style depth (.float x) = signed negative text ∧ IsNumeral text := by
  cases x with
  | finite negative rank =>
    exact ⟨negative, _, toList_write_finite negative rank, NumberLayout.isNumeral_magnitude rank⟩
  | infinite negative => cases hx
  | nan => cases hx

theorem exists_start_signed (negative : Bool) {text : List Char} (h : IsNumeral text) :
    ∃ c more, signed negative text = c :: more ∧ IsStart c := by
  obtain ⟨c, more, rfl, hc⟩ := h.start
  cases negative with
  | true => exact ⟨'-', _, rfl, by decide, by decide, by decide⟩
  | false => exact ⟨c, more, rfl, isStart_of_isDigit hc⟩

theorem exists_start (style : Style) (depth : Nat) {v : Value} (h : v.IsProper) :
    ∃ c more, writeValue style depth v = c :: more ∧ IsStart c := by
  cases h with
  | null => exact ⟨'n', _, rfl, by decide, by decide, by decide⟩
  | bool b =>
    cases b with
    | true => exact ⟨'t', _, rfl, by decide, by decide, by decide⟩
    | false => exact ⟨'f', _, rfl, by decide, by decide, by decide⟩
  | int n =>
    obtain ⟨negative, text, htext, hnumeral⟩ := exists_signed_int style depth n
    rw [htext]
    exact exists_start_signed negative hnumeral
  | float finite =>
    obtain ⟨negative, text, htext, hnumeral⟩ := exists_signed_float style depth finite
    rw [htext]
    exact exists_start_signed negative hnumeral
  | str s => exact ⟨'"', _, rfl, by decide, by decide, by decide⟩
  | arr each =>
    obtain ⟨more, htext⟩ := exists_bracketed style depth '[' ']' (writeItems style (depth + 1) _)
    exact ⟨'[', more, htext, by decide, by decide, by decide⟩
  | obj names each =>
    obtain ⟨more, htext⟩ :=
      exists_bracketed style depth '\x7b' '\x7d' (writeMembers style (depth + 1) _)
    exact ⟨'\x7b', more, htext, by decide, by decide, by decide⟩

/-- A value is read where it is written, in the layout of the style. -/
def ReadsBack (style : Style) (v : Value) : Prop :=
  ∀ (depth fuel : Nat) (at_ : Cursor) (rest : List Char),
    at_.rest = writeValue style depth v ++ rest → EndsNumber rest →
    (writeValue style depth v).length ≤ fuel →
    ∃ next, readValue (fuel + 1) at_ = .ok (v, next) ∧ next.rest = rest

theorem readValue_plain (fuel : Nat) {at_ : Cursor} {c : Char} {rest : List Char}
    (hat : at_.rest = c :: rest) (hquote : c ≠ '"') (hlist : c ≠ '[') (hobject : c ≠ '\x7b') :
    readValue (fuel + 1) at_ = readPlain at_ := by
  rw [readValue, hat]
  simp [hquote, hlist, hobject]

theorem readsBack_null (style : Style) : ReadsBack style .null := by
  intro depth fuel at_ rest hat _ _
  have htext : at_.rest = 'n' :: 'u' :: 'l' :: 'l' :: rest := hat
  refine ⟨at_.advance 4, ?_, by rw [Cursor.advance, htext]; rfl⟩
  rw [readValue_plain fuel htext (by decide) (by decide) (by decide), readPlain, htext]
  rfl

theorem readsBack_bool (style : Style) (b : Bool) : ReadsBack style (.bool b) := by
  intro depth fuel at_ rest hat _ _
  cases b with
  | true =>
    have htext : at_.rest = 't' :: 'r' :: 'u' :: 'e' :: rest := hat
    refine ⟨at_.advance 4, ?_, by rw [Cursor.advance, htext]; rfl⟩
    rw [readValue_plain fuel htext (by decide) (by decide) (by decide), readPlain, htext]
    rfl
  | false =>
    have htext : at_.rest = 'f' :: 'a' :: 'l' :: 's' :: 'e' :: rest := hat
    refine ⟨at_.advance 5, ?_, by rw [Cursor.advance, htext]; rfl⟩
    rw [readValue_plain fuel htext (by decide) (by decide) (by decide), readPlain, htext]
    rfl

theorem readValue_signed (fuel : Nat) {negative : Bool} {text rest : List Char} (h : IsNumeral text)
    {at_ : Cursor} (hat : at_.rest = signed negative text ++ rest) :
    readValue (fuel + 1) at_ = readPlain at_ := by
  obtain ⟨c, more, rfl, hc⟩ := h.start
  cases negative with
  | true => exact readValue_plain fuel hat (by decide) (by decide) (by decide)
  | false =>
    have hmarks : ['"', '[', '\x7b'].all (fun d => !d.isDigit) = true := by decide
    have hne : c ∉ ['"', '[', '\x7b'] := by
      intro hmem
      have hmark := List.all_eq_true.1 hmarks c hmem
      rw [hc] at hmark
      cases hmark
    simp only [List.mem_cons, List.not_mem_nil, or_false, not_or] at hne
    exact readValue_plain fuel hat hne.1 hne.2.1 hne.2.2

theorem readsBack_int (style : Style) {n : Int} (hshort : n.natAbs < tenTo wholeLimit) :
    ReadsBack style (.int n) := by
  intro depth fuel at_ rest hat hrest _
  obtain ⟨negative, text, htext, hnumeral⟩ := exists_signed_int style depth n
  rw [readValue_signed fuel hnumeral (htext ▸ hat)]
  exact readPlain_int hshort hrest hat

theorem readsBack_float (style : Style) {x : Double} (hx : x.isFinite = true) :
    ReadsBack style (.float x) := by
  intro depth fuel at_ rest hat hrest _
  obtain ⟨negative, text, htext, hnumeral⟩ := exists_signed_float style depth hx
  rw [readValue_signed fuel hnumeral (htext ▸ hat)]
  exact readPlain_float hx hrest hat

theorem readsBack_str (style : Style) (s : String) : ReadsBack style (.str s) := by
  intro depth fuel at_ rest hat _ _
  have htext : at_.rest = writeString style.ascii s ++ rest := hat
  obtain ⟨next, hread, hnext⟩ := readString_writeString htext
  have hquote : at_.rest = '"' :: (s.toList.flatMap (charText style.ascii) ++ ['"'] ++ rest) := htext
  refine ⟨next, ?_, hnext⟩
  rw [readValue]
  rw [hquote] at hread ⊢
  simp only [hread]
  rfl

/-- The texts of parts with what stands between them. -/
def joinedText (style : Style) (depth : Nat) (parts : List (List Char)) : List Char :=
  List.flatten (parts.intersperse (style.separator depth))

theorem joinedText_singleton (style : Style) (depth : Nat) (part : List Char) :
    joinedText style depth [part] = part := by
  simp [joinedText]

theorem joinedText_cons_cons (style : Style) (depth : Nat) (first second : List Char)
    (more : List (List Char)) :
    joinedText style depth (first :: second :: more) =
      first ++ (style.separator depth ++ joinedText style depth (second :: more)) := by
  simp [joinedText]

theorem exists_joinedText_cons (style : Style) (depth : Nat) (part : List Char)
    (parts : List (List Char)) : ∃ more, joinedText style depth (part :: parts) = part ++ more := by
  cases parts with
  | nil => exact ⟨[], by rw [joinedText_singleton, List.append_nil]⟩
  | cons second rest => exact ⟨_, joinedText_cons_cons style depth part second rest⟩

theorem bracketed_cons (style : Style) (depth : Nat) (opening closing : Char) (part : List Char)
    (more : List (List Char)) :
    bracketed style depth opening closing (part :: more) =
      opening :: (style.lineBreak (depth + 1) ++ (joinedText style (depth + 1) (part :: more) ++
        (style.lineBreak depth ++ [closing]))) := by
  simp [bracketed, joinedText]

/-- Only white space stands between the brackets of a container and its parts. -/
theorem exists_bracketed_cons (style : Style) (depth : Nat) (opening closing : Char)
    (part : List Char) (more : List (List Char)) :
    ∃ before behind, IsBlanks before ∧ IsBlanks behind ∧
      bracketed style depth opening closing (part :: more) =
        opening :: (before ++ (joinedText style (depth + 1) (part :: more) ++ (behind ++ [closing]))) :=
  ⟨_, _, isBlanks_lineBreak style (depth + 1), isBlanks_lineBreak style depth,
    bracketed_cons style depth opening closing part more⟩

/-- What may stand behind the last part of a container: white space and its closing bracket. -/
theorem endsNumber_closing {blanks : List Char} (h : IsBlanks blanks) {closing : Char}
    (hclosing : closing = ']' ∨ closing = '\x7d') (rest : List Char) :
    EndsNumber (blanks ++ closing :: rest) := by
  apply endsNumber_of_isBlanks h
  apply endsNumber_cons
  rcases hclosing with rfl | rfl <;> decide

/-- The next part is found behind the comma. -/
theorem rest_afterComma {next : Cursor} {gap text : List Char} (hgap : IsBlanks gap)
    (htext : StartsDark text) (hnext : next.rest = ',' :: (gap ++ text)) :
    next.skipSpace.rest = ',' :: (gap ++ text) ∧
      (next.skipSpace.advance 1).skipSpace.rest = text := by
  have hcomma : next.skipSpace.rest = ',' :: (gap ++ text) := by
    rw [← hnext]
    apply rest_skipSpace_of_startsDark
    rw [hnext]
    exact startsDark_cons (by decide) _
  refine ⟨hcomma, rest_skipSpace hgap htext ?_⟩
  rw [Cursor.advance, hcomma]
  rfl

theorem readItems_last {fuel : Nat} {at_ next : Cursor} {v : Value} {rest : List Char}
    (hread : readValue fuel at_ = .ok (v, next)) (hclosed : next.skipSpace.rest = ']' :: rest) :
    ∃ last, readItems (fuel + 1) at_ = .ok ([v], last) ∧ last.rest = rest := by
  refine ⟨next.skipSpace.advance 1, ?_, by rw [Cursor.advance, hclosed]; rfl⟩
  rw [readItems]
  simp only [hread, bind, Except.bind, hclosed]
  rfl

theorem readItems_more {fuel : Nat} {at_ next last : Cursor} {v : Value} {items : List Value}
    {rest : List Char} (hread : readValue fuel at_ = .ok (v, next))
    (hcomma : next.skipSpace.rest = ',' :: rest)
    (hmore : readItems fuel (next.skipSpace.advance 1).skipSpace = .ok (items, last)) :
    readItems (fuel + 1) at_ = .ok (v :: items, last) := by
  rw [readItems]
  simp only [hread, bind, Except.bind, hcomma, hmore]
  rfl

def itemsText (style : Style) (depth : Nat) (items : List Value) : List Char :=
  joinedText style depth (writeItems style depth items)

theorem itemsText_cons_cons (style : Style) (depth : Nat) (v w : Value) (tail : List Value) :
    ∃ gap, IsBlanks gap ∧ itemsText style depth (v :: w :: tail) =
      writeValue style depth v ++ ',' :: (gap ++ itemsText style depth (w :: tail)) := by
  obtain ⟨gap, hgap, hblank⟩ := exists_separator style depth
  have hsplit := joinedText_cons_cons style depth (writeValue style depth v)
    (writeValue style depth w) (writeItems style depth tail)
  rw [hgap] at hsplit
  exact ⟨gap, hblank, hsplit⟩

theorem exists_start_itemsText (style : Style) (depth : Nat) {v : Value} (h : v.IsProper)
    (more : List Value) :
    ∃ c rest, itemsText style depth (v :: more) = c :: rest ∧ IsStart c := by
  obtain ⟨c, start, hstart, hc⟩ := exists_start style depth h
  obtain ⟨rest, hrest⟩ := exists_joinedText_cons style depth
    (writeValue style depth v) (writeItems style depth more)
  have htext : itemsText style depth (v :: more) = writeValue style depth v ++ rest := hrest
  rw [hstart] at htext
  exact ⟨c, _, htext, hc⟩

/-- The items of a list are read up to its closing bracket. -/
theorem readItems_itemsText {style : Style} {items : List Value} (hne : items ≠ [])
    (hproper : ∀ v ∈ items, v.IsProper) (heach : ∀ v ∈ items, ReadsBack style v) {depth fuel : Nat}
    {at_ : Cursor} {blanks rest : List Char} (hblanks : IsBlanks blanks)
    (hat : at_.rest = itemsText style depth items ++ (blanks ++ ']' :: rest))
    (hfuel : (itemsText style depth items).length < fuel) :
    ∃ last, readItems (fuel + 1) at_ = .ok (items, last) ∧ last.rest = rest := by
  induction items generalizing fuel at_ with
  | nil => exact absurd rfl hne
  | cons v more ih =>
    obtain ⟨fuel, rfl⟩ := Nat.exists_eq_succ_of_ne_zero (Nat.ne_zero_of_lt hfuel)
    obtain ⟨hv, hmore⟩ := List.forall_mem_cons.1 heach
    cases more with
    | nil =>
      rw [itemsText, writeItems, writeItems, joinedText_singleton] at hat hfuel
      have hends := endsNumber_closing hblanks (.inl rfl) rest
      obtain ⟨next, hread, hnext⟩ := hv depth fuel at_ _ hat hends (Nat.le_of_lt_succ hfuel)
      have hclosed := rest_skipSpace hblanks (startsDark_cons (by decide) rest) hnext
      exact readItems_last hread hclosed
    | cons w tail =>
      have hproper := (List.forall_mem_cons.1 hproper).2
      obtain ⟨gap, hgap, hsplit⟩ := itemsText_cons_cons style depth v w tail
      obtain ⟨c, start, hstart, hc⟩ :=
        exists_start_itemsText style depth (hproper w List.mem_cons_self) tail
      have hdark : StartsDark (itemsText style depth (w :: tail) ++ (blanks ++ ']' :: rest)) := by
        rw [hstart]
        exact startsDark_cons hc.dark _
      rw [hsplit, List.append_assoc, List.cons_append, List.append_assoc] at hat
      rw [hsplit, List.length_append, List.length_cons, List.length_append] at hfuel
      have hends : EndsNumber (',' :: (gap ++ (itemsText style depth (w :: tail) ++
          (blanks ++ ']' :: rest)))) := endsNumber_cons (by decide) _
      have hless : (itemsText style depth (w :: tail)).length < fuel := by omega
      obtain ⟨next, hread, hnext⟩ := hv depth fuel at_ _ hat hends (by omega)
      obtain ⟨hcomma, hinside⟩ := rest_afterComma hgap hdark hnext
      obtain ⟨last, htail, hlast⟩ := ih (by simp) hproper hmore hinside hless
      exact ⟨last, readItems_more hread hcomma htail, hlast⟩

/-- The inside of a container is found behind its opening bracket. -/
theorem rest_opened {at_ : Cursor} {opening : Char} {blanks text : List Char}
    (hblanks : IsBlanks blanks) (htext : StartsDark text)
    (hat : at_.rest = opening :: (blanks ++ text)) : (at_.advance 1).skipSpace.rest = text := by
  apply rest_skipSpace hblanks htext
  rw [Cursor.advance, hat]
  rfl

theorem readValue_arr {fuel : Nat} {at_ last : Cursor} {blanks text : List Char}
    {items : List Value} (hat : at_.rest = '[' :: (blanks ++ text)) (hblanks : IsBlanks blanks)
    (htext : ∃ c rest, text = c :: rest ∧ IsStart c)
    (hread : readItems fuel (at_.advance 1).skipSpace = .ok (items, last)) :
    readValue (fuel + 1) at_ = .ok (.arr items, last) := by
  obtain ⟨c, rest, rfl, hc⟩ := htext
  have hinside := rest_opened hblanks (startsDark_cons hc.dark rest) hat
  rw [readValue, hat]
  simp [hinside, hc.opens, hread, bind, Except.bind, pure, Except.pure]

theorem readsBack_arr {style : Style} {items : List Value} (hproper : ∀ v ∈ items, v.IsProper)
    (heach : ∀ v ∈ items, ReadsBack style v) : ReadsBack style (.arr items) := by
  intro depth fuel at_ rest hat _ hfuel
  cases items with
  | nil =>
    have htext : at_.rest = '[' :: ([] ++ ']' :: rest) := hat
    have hinside := rest_opened (by simp [IsBlanks]) (startsDark_cons (by decide) rest) htext
    refine ⟨(at_.advance 1).skipSpace.advance 1, ?_, by rw [Cursor.advance, hinside]; rfl⟩
    rw [readValue, htext]
    simp [hinside]
  | cons v more =>
    obtain ⟨before, behind, hopen, hclose, htext⟩ : ∃ before behind, IsBlanks before ∧
        IsBlanks behind ∧ writeValue style depth (.arr (v :: more)) =
          '[' :: (before ++ (itemsText style (depth + 1) (v :: more) ++ (behind ++ [']']))) :=
      exists_bracketed_cons _ _ _ _ _ _
    rw [htext] at hat hfuel
    have hat : at_.rest = '[' :: (before ++ (itemsText style (depth + 1) (v :: more) ++
        (behind ++ ']' :: rest))) := by simpa using hat
    simp only [List.length_cons, List.length_append] at hfuel
    obtain ⟨fuel, rfl⟩ : ∃ n, fuel = n + 1 := ⟨fuel - 1, by omega⟩
    obtain ⟨c, start, hstart, hc⟩ :=
      exists_start_itemsText style (depth + 1) (hproper v List.mem_cons_self) more
    have hfirst : ∃ c rest', itemsText style (depth + 1) (v :: more) ++ (behind ++ ']' :: rest) =
        c :: rest' ∧ IsStart c := ⟨c, _, by rw [hstart]; rfl, hc⟩
    have hdark : StartsDark (itemsText style (depth + 1) (v :: more) ++ (behind ++ ']' :: rest)) := by
      rw [hstart]
      exact startsDark_cons hc.dark _
    have hinside := rest_opened hopen hdark hat
    have hless : (itemsText style (depth + 1) (v :: more)).length < fuel := by omega
    obtain ⟨last, hread, hlast⟩ := readItems_itemsText (by simp) hproper heach hclose hinside hless
    exact ⟨last, readValue_arr hat hopen hfirst hread, hlast⟩

/-- The name of a member is read here, and a colon follows it. -/
structure ReadsName (at_ : Cursor) (name : String) (next : Cursor) : Prop where
  quoted : ∃ rest, at_.rest = '"' :: rest
  read : readString at_.offset at_.rest.length (at_.advance 1) [] = .ok (name, next)
  colon : ∃ rest, next.skipSpace.rest = ':' :: rest

theorem exists_readsName {ascii : Bool} {at_ : Cursor} {name : String} {text : List Char}
    (htext : StartsDark text) (hat : at_.rest = writeString ascii name ++ ':' :: ' ' :: text) :
    ∃ next, ReadsName at_ name next ∧ (next.skipSpace.advance 1).skipSpace.rest = text := by
  obtain ⟨next, hread, hnext⟩ := readString_writeString hat
  have hquoted : at_.rest =
      '"' :: (name.toList.flatMap (charText ascii) ++ ['"'] ++ ':' :: ' ' :: text) := hat
  have hcolon : next.skipSpace.rest = ':' :: ' ' :: text := by
    rw [← hnext]
    apply rest_skipSpace_of_startsDark
    rw [hnext]
    exact startsDark_cons (by decide) _
  have hblank : IsBlanks [' '] := by
    intro c hc
    rw [List.mem_singleton.1 hc]
    rfl
  refine ⟨next, ⟨⟨_, hquoted⟩, hread, ⟨_, hcolon⟩⟩, rest_skipSpace hblank htext ?_⟩
  rw [Cursor.advance, hcolon]
  rfl

theorem readMembers_last {fuel : Nat} {at_ next after : Cursor} {name : String} {v : Value}
    {rest : List Char} (hname : ReadsName at_ name next)
    (hread : readValue fuel (next.skipSpace.advance 1).skipSpace = .ok (v, after))
    (hclosed : after.skipSpace.rest = '\x7d' :: rest) :
    ∃ last, readMembers (fuel + 1) at_ = .ok ([(name, v)], last) ∧ last.rest = rest := by
  obtain ⟨⟨text, hat⟩, hstring, ⟨behind, hcolon⟩⟩ := hname
  refine ⟨after.skipSpace.advance 1, ?_, by rw [Cursor.advance, hclosed]; rfl⟩
  rw [readMembers]
  rw [hat] at hstring ⊢
  simp only [hstring, bind, Except.bind, hcolon, hread, hclosed]
  rfl

theorem readMembers_more {fuel : Nat} {at_ next after last : Cursor} {name : String} {v : Value}
    {members : List (String × Value)} {rest : List Char} (hname : ReadsName at_ name next)
    (hread : readValue fuel (next.skipSpace.advance 1).skipSpace = .ok (v, after))
    (hcomma : after.skipSpace.rest = ',' :: rest)
    (hmore : readMembers fuel (after.skipSpace.advance 1).skipSpace = .ok (members, last)) :
    readMembers (fuel + 1) at_ = .ok ((name, v) :: members, last) := by
  obtain ⟨⟨text, hat⟩, hstring, ⟨behind, hcolon⟩⟩ := hname
  rw [readMembers]
  rw [hat] at hstring ⊢
  simp only [hstring, bind, Except.bind, hcolon, hread, hcomma, hmore]
  rfl

def membersText (style : Style) (depth : Nat) (members : List (String × Value)) : List Char :=
  joinedText style depth (writeMembers style depth members)

theorem membersText_singleton (style : Style) (depth : Nat) (name : String) (v : Value) :
    membersText style depth [(name, v)] =
      writeString style.ascii name ++ ':' :: ' ' :: writeValue style depth v := by
  rw [membersText, writeMembers, writeMembers, joinedText_singleton, List.append_assoc]
  rfl

theorem membersText_cons_cons (style : Style) (depth : Nat) (name : String) (v : Value)
    (m : String × Value) (tail : List (String × Value)) :
    ∃ gap, IsBlanks gap ∧ membersText style depth ((name, v) :: m :: tail) =
      writeString style.ascii name ++ ':' :: ' ' :: (writeValue style depth v ++
        ',' :: (gap ++ membersText style depth (m :: tail))) := by
  obtain ⟨gap, hgap, hblank⟩ := exists_separator style depth
  have hsplit := joinedText_cons_cons style depth
    (writeString style.ascii name ++ [':', ' '] ++ writeValue style depth v)
    (writeString style.ascii m.1 ++ [':', ' '] ++ writeValue style depth m.2)
    (writeMembers style depth tail)
  rw [hgap] at hsplit
  have htext : membersText style depth ((name, v) :: m :: tail) =
      writeString style.ascii name ++ [':', ' '] ++ writeValue style depth v ++
        (',' :: gap ++ membersText style depth (m :: tail)) := hsplit
  refine ⟨gap, hblank, ?_⟩
  rw [htext]
  simp

theorem exists_membersText_cons (style : Style) (depth : Nat) (m : String × Value)
    (more : List (String × Value)) :
    ∃ rest, membersText style depth (m :: more) = '"' :: rest := by
  obtain ⟨rest, hrest⟩ := exists_joinedText_cons style depth
    (writeString style.ascii m.1 ++ [':', ' '] ++ writeValue style depth m.2)
    (writeMembers style depth more)
  exact ⟨_, hrest⟩

/-- The members of an object are read up to its closing bracket. -/
theorem readMembers_membersText {style : Style} {members : List (String × Value)}
    (hne : members ≠ []) (hproper : ∀ m ∈ members, m.2.IsProper)
    (heach : ∀ m ∈ members, ReadsBack style m.2) {depth fuel : Nat} {at_ : Cursor}
    {blanks rest : List Char} (hblanks : IsBlanks blanks)
    (hat : at_.rest = membersText style depth members ++ (blanks ++ '\x7d' :: rest))
    (hfuel : (membersText style depth members).length < fuel) :
    ∃ last, readMembers (fuel + 1) at_ = .ok (members, last) ∧ last.rest = rest := by
  induction members generalizing fuel at_ with
  | nil => exact absurd rfl hne
  | cons m more ih =>
    obtain ⟨name, v⟩ := m
    obtain ⟨fuel, rfl⟩ := Nat.exists_eq_succ_of_ne_zero (Nat.ne_zero_of_lt hfuel)
    have hv : ReadsBack style v := heach _ List.mem_cons_self
    have hmore := (List.forall_mem_cons.1 heach).2
    obtain ⟨hpv, hpmore⟩ := List.forall_mem_cons.1 hproper
    obtain ⟨c, start, hstart, hc⟩ := exists_start style depth hpv
    have hdark (behind : List Char) :
        StartsDark (writeValue style depth v ++ behind) := by
      rw [hstart]
      exact startsDark_cons hc.dark _
    cases more with
    | nil =>
      rw [membersText_singleton] at hat hfuel
      simp only [List.append_assoc, List.cons_append] at hat
      simp only [List.length_append, List.length_cons] at hfuel
      obtain ⟨next, hname, hnext⟩ := exists_readsName (hdark _) hat
      have hends := endsNumber_closing hblanks (.inr rfl) rest
      obtain ⟨after, hread, hafter⟩ := hv depth fuel _ _ hnext hends (by omega)
      have hclosed := rest_skipSpace hblanks (startsDark_cons (by decide) rest) hafter
      exact readMembers_last hname hread hclosed
    | cons m tail =>
      obtain ⟨gap, hgap, hsplit⟩ := membersText_cons_cons style depth name v m tail
      obtain ⟨rest', hquote⟩ := exists_membersText_cons style depth m tail
      have htail : StartsDark (membersText style depth (m :: tail) ++ (blanks ++ '\x7d' :: rest)) := by
        rw [hquote]
        exact startsDark_cons (by decide) _
      rw [hsplit] at hat hfuel
      simp only [List.append_assoc, List.cons_append] at hat
      simp only [List.length_append, List.length_cons] at hfuel
      have hends : EndsNumber (',' :: (gap ++ (membersText style depth (m :: tail) ++
          (blanks ++ '\x7d' :: rest)))) := endsNumber_cons (by decide) _
      have hless : (membersText style depth (m :: tail)).length < fuel := by omega
      obtain ⟨next, hname, hnext⟩ := exists_readsName (hdark _) hat
      obtain ⟨after, hread, hafter⟩ := hv depth fuel _ _ hnext hends (by omega)
      obtain ⟨hcomma, hinside⟩ := rest_afterComma hgap htail hafter
      obtain ⟨last, hmembers, hlast⟩ := ih (by simp) hpmore hmore hinside hless
      exact ⟨last, readMembers_more hname hread hcomma hmembers, hlast⟩

theorem readValue_obj {fuel : Nat} {at_ last : Cursor} {blanks rest : List Char}
    {members : List (String × Value)} (hat : at_.rest = '\x7b' :: (blanks ++ '"' :: rest))
    (hblanks : IsBlanks blanks) (hnames : (Members.keys members).Nodup)
    (hread : readMembers fuel (at_.advance 1).skipSpace = .ok (members, last)) :
    readValue (fuel + 1) at_ = .ok (.obj members, last) := by
  have hinside := rest_opened hblanks (startsDark_cons (by decide) rest) hat
  rw [readValue, hat]
  simp [hinside, hread, Members.ofList_of_nodup hnames, bind, Except.bind, pure, Except.pure]

theorem readsBack_obj {style : Style} {members : List (String × Value)}
    (hnames : (Members.keys members).Nodup) (hproper : ∀ m ∈ members, m.2.IsProper)
    (heach : ∀ m ∈ members, ReadsBack style m.2) : ReadsBack style (.obj members) := by
  intro depth fuel at_ rest hat _ hfuel
  cases members with
  | nil =>
    have htext : at_.rest = '\x7b' :: ([] ++ '\x7d' :: rest) := hat
    have hinside := rest_opened (by simp [IsBlanks]) (startsDark_cons (by decide) rest) htext
    refine ⟨(at_.advance 1).skipSpace.advance 1, ?_, by rw [Cursor.advance, hinside]; rfl⟩
    rw [readValue, htext]
    simp [hinside]
  | cons m more =>
    obtain ⟨before, behind, hopen, hclose, htext⟩ : ∃ before behind, IsBlanks before ∧
        IsBlanks behind ∧ writeValue style depth (.obj (m :: more)) =
          '\x7b' :: (before ++
            (membersText style (depth + 1) (m :: more) ++ (behind ++ ['\x7d']))) :=
      exists_bracketed_cons _ _ _ _ _ _
    rw [htext] at hat hfuel
    have hat : at_.rest = '\x7b' :: (before ++ (membersText style (depth + 1) (m :: more) ++
        (behind ++ '\x7d' :: rest))) := by simpa using hat
    simp only [List.length_cons, List.length_append] at hfuel
    obtain ⟨fuel, rfl⟩ : ∃ n, fuel = n + 1 := ⟨fuel - 1, by omega⟩
    obtain ⟨start, hstart⟩ := exists_membersText_cons style (depth + 1) m more
    have hdark : StartsDark (membersText style (depth + 1) (m :: more) ++
        (behind ++ '\x7d' :: rest)) := by
      rw [hstart]
      exact startsDark_cons (by decide) _
    have hinside := rest_opened hopen hdark hat
    have hless : (membersText style (depth + 1) (m :: more)).length < fuel := by omega
    obtain ⟨last, hread, hlast⟩ :=
      readMembers_membersText (by simp) hproper heach hclose hinside hless
    rw [hstart] at hat
    exact ⟨last, readValue_obj hat hopen hnames hread, hlast⟩

/-- A proper value without whole numbers of too many digits is read back. -/
theorem readsBack_of_isProper (style : Style) {v : Value} (h : v.IsProper)
    (hshort : v.isShort = true) : ReadsBack style v := by
  induction h with
  | null => exact readsBack_null style
  | bool b => exact readsBack_bool style b
  | int n =>
    rw [Value.isShort, decide_eq_true_eq] at hshort
    exact readsBack_int style hshort
  | float finite => exact readsBack_float style finite
  | str s => exact readsBack_str style s
  | arr each ih =>
    have hitems := Value.allShort_iff.1 hshort
    exact readsBack_arr each fun v hv => ih v hv (hitems v hv)
  | obj names each ih =>
    have hmembers := Value.allShortMembers_iff.1 hshort
    exact readsBack_obj names each fun m hm => ih m hm (hmembers m hm)

theorem isBlanks_lineEnd : IsBlanks ['\n'] := by
  intro c hc
  rw [List.mem_singleton.1 hc]
  rfl

theorem endsNumber_nil : EndsNumber [] := by
  intro c hc
  cases hc

/-- The value is read if only white space follows it. -/
theorem readList_writeValue {style : Style} {v : Value} (h : v.IsProper)
    (hread : ReadsBack style v) {blanks : List Char} (hblanks : IsBlanks blanks) :
    readList (writeValue style 0 v ++ blanks) = .ok v := by
  obtain ⟨c, more, hstart, hc⟩ := exists_start style 0 h
  let begin_ : Cursor := ⟨writeValue style 0 v ++ blanks, 0⟩
  have hdark : StartsDark begin_.rest := by
    change StartsDark (writeValue style 0 v ++ blanks)
    rw [hstart]
    exact startsDark_cons hc.dark _
  have hmark : (writeValue style 0 v ++ blanks).head? ≠ some (Char.ofNat 0xFEFF) := by
    intro hmark
    rw [hstart] at hmark
    exact hc.unmarked (Option.some.inj hmark)
  have hends : EndsNumber blanks := by
    have hends := endsNumber_of_isBlanks hblanks endsNumber_nil
    rwa [List.append_nil] at hends
  have hbegin : begin_.skipSpace.rest = writeValue style 0 v ++ blanks :=
    rest_skipSpace_of_startsDark hdark
  obtain ⟨next, hvalue, hnext⟩ := hread 0 (2 * begin_.rest.length + 1) begin_.skipSpace blanks hbegin
    hends (by simp [begin_]; omega)
  have hlast : next.skipSpace.rest = [] := by
    apply rest_skipSpace hblanks (fun c hc => by cases hc)
    rw [hnext, List.append_nil]
  rw [readList, if_neg hmark]
  change (readValue (2 * begin_.rest.length + 1 + 1) begin_.skipSpace >>= _) = _
  rw [hvalue]
  simp [bind, Except.bind, hlast, pure, Except.pure]

theorem isWoven_isNumeral {text : List Char} (h : IsNumeral text) : IsWoven text := by
  refine .of_plain fun c hc => ?_
  rcases h.chars c hc with hdigit | hmark
  · exact ⟨by rintro rfl; exact absurd hdigit (by decide), by rintro rfl; exact absurd hdigit (by decide)⟩
  · exact ⟨by rintro rfl; exact absurd hmark (by decide), by rintro rfl; exact absurd hmark (by decide)⟩

theorem isWoven_signed (negative : Bool) {text : List Char} (h : IsNumeral text) :
    IsWoven (signed negative text) := by
  cases negative with
  | true => exact .plain (by decide) (by decide) (isWoven_isNumeral h)
  | false => exact isWoven_isNumeral h

theorem isWoven_lineBreak (style : Style) (depth : Nat) : IsWoven (style.lineBreak depth) := by
  unfold Style.lineBreak
  split
  · exact .nil
  · refine .plain (by decide) (by decide) (.of_plain fun c hc => ?_)
    rw [List.eq_of_mem_replicate hc]
    decide

theorem isWoven_separator (style : Style) (depth : Nat) : IsWoven (style.separator depth) := by
  unfold Style.separator
  split
  · exact .of_all (by decide)
  · exact .plain (by decide) (by decide) (isWoven_lineBreak style depth)

theorem isWoven_joinedText (style : Style) (depth : Nat) {parts : List (List Char)}
    (h : ∀ part ∈ parts, IsWoven part) : IsWoven (joinedText style depth parts) := by
  induction parts with
  | nil => exact .nil
  | cons first rest ih =>
    obtain ⟨hfirst, hrest⟩ := List.forall_mem_cons.1 h
    cases rest with
    | nil => rwa [joinedText_singleton]
    | cons second more =>
      rw [joinedText_cons_cons]
      exact hfirst.append ((isWoven_separator style depth).append (ih hrest))

theorem isWoven_bracketed (style : Style) (depth : Nat) {opening closing : Char}
    (hopening : opening ≠ '\\' ∧ opening ≠ '\r') (hclosing : closing ≠ '\\' ∧ closing ≠ '\r')
    {parts : List (List Char)} (h : ∀ part ∈ parts, IsWoven part) :
    IsWoven (bracketed style depth opening closing parts) := by
  have hend : IsWoven [closing] := .plain hclosing.1 hclosing.2 .nil
  cases parts with
  | nil => exact .plain hopening.1 hopening.2 hend
  | cons first rest =>
    rw [bracketed_cons]
    refine .plain hopening.1 hopening.2 ((isWoven_lineBreak style _).append ?_)
    exact (isWoven_joinedText style _ h).append ((isWoven_lineBreak style _).append hend)

theorem isWoven_write_document (x : Double) : IsWoven (NumberLayout.document.write x).toList := by
  cases x with
  | finite negative rank =>
    rw [toList_write_finite]
    exact isWoven_signed negative (NumberLayout.isNumeral_magnitude rank)
  | infinite negative => cases negative <;> exact .of_all (by decide)
  | nan => exact .of_all (by decide)

mutual

/-- Backslashes are written in strings only, and carriage returns nowhere. -/
theorem isWoven_writeValue (style : Style) (v : Value) (depth : Nat) :
    IsWoven (writeValue style depth v) := by
  cases v with
  | null => exact .of_all rfl
  | bool b =>
    cases b with
    | true => exact .of_all rfl
    | false => exact .of_all rfl
  | int n =>
    obtain ⟨negative, text, htext, hnumeral⟩ := exists_signed_int style depth n
    rw [htext]
    exact isWoven_signed negative hnumeral
  | float x => exact isWoven_write_document x
  | str s => exact isWoven_writeString style.ascii s
  | arr items =>
    refine isWoven_bracketed _ _ ?_ ?_ (isWoven_writeItems style items _)
    · decide
    · decide
  | obj members =>
    refine isWoven_bracketed _ _ ?_ ?_ (isWoven_writeMembers style members _)
    · decide
    · decide

theorem isWoven_writeItems (style : Style) (items : List Value) (depth : Nat) :
    ∀ part ∈ writeItems style depth items, IsWoven part := by
  cases items with
  | nil => simp [writeItems]
  | cons v rest =>
    exact List.forall_mem_cons.2
      ⟨isWoven_writeValue style v depth, isWoven_writeItems style rest depth⟩

theorem isWoven_writeMembers (style : Style) (members : List (String × Value)) (depth : Nat) :
    ∀ part ∈ writeMembers style depth members, IsWoven part := by
  cases members with
  | nil => simp [writeMembers]
  | cons m rest =>
    obtain ⟨name, v⟩ := m
    refine List.forall_mem_cons.2 ⟨?_, isWoven_writeMembers style rest depth⟩
    exact ((isWoven_writeString style.ascii name).append (.of_all (by decide))).append
      (isWoven_writeValue style v depth)

end

theorem read_of_readList {text : String} {v : Value} (h : readList text.toList = .ok v)
    (hwoven : IsWoven text.toList) : read text = .ok v := by
  rw [read, h, hwoven.hasHalf]
  rfl

/-- What is written for a value on many lines is read as that value, if a line end follows. -/
theorem read_pretty {v : Value} (h : v.IsProper) (hshort : v.isShort = true) :
    read (pretty v ++ "\n") = .ok v := by
  have htext : (pretty v ++ "\n").toList = writeValue ⟨false, some 2⟩ 0 v ++ ['\n'] := by
    rw [String.toList_append, pretty, String.toList_ofList]
    rfl
  refine read_of_readList ?_ ?_
  · rw [htext]
    exact readList_writeValue h (readsBack_of_isProper ⟨false, some 2⟩ h hshort) isBlanks_lineEnd
  · rw [htext]
    exact (isWoven_writeValue _ v 0).append (.of_all (by decide))

/-- What is written for a value on one line is read as that value. -/
theorem read_compact {v : Value} (h : v.IsProper) (hshort : v.isShort = true) :
    read (compact v) = .ok v := by
  have htext : (compact v).toList = writeValue ⟨true, none⟩ 0 v ++ [] := by
    rw [compact, String.toList_ofList, List.append_nil]
  have hblanks : IsBlanks [] := fun c hc => by cases hc
  refine read_of_readList ?_ ?_
  · rw [htext]
    exact readList_writeValue h (readsBack_of_isProper ⟨true, none⟩ h hshort) hblanks
  · rw [htext, List.append_nil]
    exact isWoven_writeValue _ v 0

/-- Different values are written differently. -/
theorem eq_of_compact_eq {v w : Value} (hv : v.IsProper) (hshort : v.isShort = true)
    (hw : w.IsProper) (hshort' : w.isShort = true) (h : compact v = compact w) : v = w := by
  have hread := read_compact hv hshort
  rw [h, read_compact hw hshort'] at hread
  exact (Except.ok.inj hread).symm

end ReminderFlow.Json
