import Mathlib.Tactic.Common
import ReminderFlow.Json.Reader
import ReminderFlow.Json.Writer

namespace ReminderFlow

namespace Text

theorem hexValue?_hexDigit {d : Nat} (h : d < 16) : hexValue? (hexDigit d) = some d := by
  have hall : ∀ d < 16, hexValue? (hexDigit d) = some d := by decide
  exact hall d h

end Text

namespace Json

open Text

/-- What is written for a character of a string. -/
def charText (ascii : Bool) (c : Char) : List Char := if needsEscape ascii c then escape c else [c]

/-- The escape of a character by the two units that stand for it. -/
def pairEscape (n : Nat) : List Char :=
  unitEscape (0xD800 + (n - 0x10000) / 0x400) ++ unitEscape (0xDC00 + (n - 0x10000) % 0x400)

/-- A unit is written with four digits. -/
theorem exists_hex_unit {unit : Nat} (h : unit < 0x10000) :
    ∃ a b c d, hex 4 unit = [a, b, c, d] ∧ unitOf? a b c d = some unit := by
  have hdigit (n : Nat) : hexValue? (hexDigit (n % 16)) = some (n % 16) :=
    hexValue?_hexDigit (Nat.mod_lt _ (by omega))
  refine ⟨_, _, _, _, rfl, ?_⟩
  simp only [unitOf?, hdigit, Option.bind_eq_bind, Option.bind_some, Option.pure_def]
  congr 1
  omega

theorem takeUnit?_hex {unit : Nat} (h : unit < 0x10000) (c : Char) (rest : List Char) :
    takeUnit? (hex 4 unit ++ c :: rest) = some (unit, c :: rest) := by
  obtain ⟨a, b, c', d, hhex, hunit⟩ := exists_hex_unit h
  rw [hhex]
  simp only [List.cons_append, List.nil_append, takeUnit?, hunit, Option.map_some]

theorem units_unitEscape {unit : Nat} (h : unit < 0x10000) (rest : List Char) :
    units (unitEscape unit ++ rest) = some unit :: units rest := by
  obtain ⟨a, b, c, d, hhex, hunit⟩ := exists_hex_unit h
  rw [unitEscape, hhex]
  simp only [List.cons_append, List.nil_append, units, hunit]

/-- A character has an escape of its own, the one by its unit, or the one by its two units. -/
theorem escape_cases (c : Char) :
    (∃ mark, escape c = ['\\', mark] ∧ mark ≠ 'u' ∧ shortEscape? mark = some c) ∨
      (escape c = unitEscape c.toNat ∧ c.toNat < 0x10000) ∨
      (escape c = pairEscape c.toNat ∧ 0x10000 ≤ c.toNat) := by
  unfold escape
  split_ifs with hquote hn hr ht hb hf hsmall
  · refine .inl ⟨c, rfl, ?_, ?_⟩
    · rcases hquote with rfl | rfl <;> decide
    · rcases hquote with rfl | rfl <;> rfl
  · exact .inl ⟨'n', rfl, by decide, by rw [hn]; rfl⟩
  · exact .inl ⟨'r', rfl, by decide, by rw [hr]; rfl⟩
  · exact .inl ⟨'t', rfl, by decide, by rw [ht]; rfl⟩
  · exact .inl ⟨'b', rfl, by decide, by rw [hb]; rfl⟩
  · exact .inl ⟨'f', rfl, by decide, by rw [hf]; rfl⟩
  · exact .inr (.inl ⟨rfl, hsmall⟩)
  · exact .inr (.inr ⟨rfl, Nat.not_lt.1 hsmall⟩)

theorem charText_cases (ascii : Bool) (c : Char) :
    (∃ mark, charText ascii c = ['\\', mark] ∧ mark ≠ 'u' ∧ shortEscape? mark = some c) ∨
      (charText ascii c = unitEscape c.toNat ∧ c.toNat < 0x10000) ∨
      (charText ascii c = pairEscape c.toNat ∧ 0x10000 ≤ c.toNat) ∨
      (charText ascii c = [c] ∧ c ≠ '"' ∧ c ≠ '\\' ∧ ¬c.toNat < 0x20) := by
  by_cases hescape : needsEscape ascii c = true
  · rw [charText, if_pos hescape]
    rcases escape_cases c with hshort | hunit | hpair
    · exact .inl hshort
    · exact .inr (.inl hunit)
    · exact .inr (.inr (.inl hpair))
  · rw [charText, if_neg hescape]
    simp only [needsEscape, Bool.or_eq_true, decide_eq_true_eq, not_or] at hescape
    obtain ⟨⟨⟨hquote, hslash⟩, hcontrol⟩, -⟩ := hescape
    exact .inr (.inr (.inr ⟨rfl, hquote, hslash, hcontrol⟩))

theorem readString_escape (opening fuel : Nat) {at_ : Cursor} {mark c : Char} {rest : List Char}
    (hat : at_.rest = '\\' :: mark :: rest) (hmark : mark ≠ 'u') (hshort : shortEscape? mark = some c)
    (read : List Char) :
    readString opening (fuel + 1) at_ read = readString opening fuel (at_.advance 2) (c :: read) := by
  obtain ⟨text, offset⟩ := at_
  subst hat
  simp [readString, hshort]

/-- No character is half of a pair. -/
theorem not_isHalf (c : Char) : ¬(0xD800 ≤ c.toNat ∧ c.toNat < 0xE000) := by
  have hvalid : c.toNat < 0xD800 ∨ 0xDFFF < c.toNat ∧ c.toNat < 0x110000 := c.valid
  omega

theorem readString_unit (opening fuel : Nat) {at_ : Cursor} {c d : Char} {rest : List Char}
    (hat : at_.rest = unitEscape c.toNat ++ d :: rest) (hsmall : c.toNat < 0x10000)
    (read : List Char) :
    readString opening (fuel + 1) at_ read = readString opening fuel (at_.advance 6) (c :: read) := by
  have hunit := takeUnit?_hex hsmall d rest
  have hwhole := not_isHalf c
  have hpair : ¬(0xD800 ≤ c.toNat ∧ c.toNat < 0xDC00) := by omega
  obtain ⟨text, offset⟩ := at_
  subst hat
  simp only [unitEscape, List.cons_append, readString, hunit, hwhole, if_false, Char.ofNat_toNat]
  split
  · rw [if_neg fun hsecond => hpair ⟨hsecond.1, hsecond.2.1⟩]
  · rfl

theorem joinPair?_units {c : Char} (h : 0x10000 ≤ c.toNat) :
    joinPair? (0xD800 + (c.toNat - 0x10000) / 0x400) (0xDC00 + (c.toNat - 0x10000) % 0x400) =
      some c := by
  have hvalid : c.toNat < 0xD800 ∨ 0xDFFF < c.toNat ∧ c.toNat < 0x110000 := c.valid
  have hjoined : 0x10000 + (0xD800 + (c.toNat - 0x10000) / 0x400 - 0xD800) * 0x400 +
      (0xDC00 + (c.toNat - 0x10000) % 0x400 - 0xDC00) = c.toNat := by omega
  rw [joinPair?, if_pos (by omega), hjoined, Char.ofNat_toNat]

theorem readString_pair (opening fuel : Nat) {at_ : Cursor} {c d : Char} {rest : List Char}
    (hat : at_.rest = pairEscape c.toNat ++ d :: rest) (hlarge : 0x10000 ≤ c.toNat)
    (read : List Char) :
    readString opening (fuel + 1) at_ read = readString opening fuel (at_.advance 12) (c :: read) := by
  have hvalid : c.toNat < 0xD800 ∨ 0xDFFF < c.toNat ∧ c.toNat < 0x110000 := c.valid
  have hjoin := joinPair?_units hlarge
  have hsecond := takeUnit?_hex (show 0xDC00 + (c.toNat - 0x10000) % 0x400 < 0x10000 by omega) d rest
  obtain ⟨high, hhigh⟩ : ∃ high, 0xD800 + (c.toNat - 0x10000) / 0x400 = high := ⟨_, rfl⟩
  obtain ⟨low, hlow⟩ : ∃ low, 0xDC00 + (c.toNat - 0x10000) % 0x400 = low := ⟨_, rfl⟩
  rw [hhigh, hlow] at hjoin
  rw [hlow] at hsecond
  have hfirst := takeUnit?_hex (show high < 0x10000 by omega) '\\' ('u' :: (hex 4 low ++ d :: rest))
  have hlong : 0xD800 ≤ high ∧ high < 0xDC00 ∧ 4 < (hex 4 low ++ d :: rest).length := by
    rw [List.length_append, length_hex, List.length_cons]
    omega
  obtain ⟨text, offset⟩ := at_
  rw [pairEscape, hhigh, hlow] at hat
  subst hat
  simp only [unitEscape, List.cons_append, List.append_assoc, readString, hfirst, hlong, hsecond,
    hjoin, and_self, if_true]

theorem readString_plain (opening fuel : Nat) {at_ : Cursor} {c : Char} {rest : List Char}
    (hat : at_.rest = c :: rest) (hquote : c ≠ '"') (hslash : c ≠ '\\') (hcontrol : ¬c.toNat < 0x20)
    (read : List Char) :
    readString opening (fuel + 1) at_ read = readString opening fuel (at_.advance 1) (c :: read) := by
  obtain ⟨text, offset⟩ := at_
  subst hat
  simp [readString, hslash, hcontrol]

/-- One character is read from what is written for it, if the string goes on. -/
theorem readString_char (ascii : Bool) (opening fuel : Nat) {at_ : Cursor} {c d : Char} {rest : List Char}
    (hat : at_.rest = charText ascii c ++ d :: rest) (read : List Char) :
    readString opening (fuel + 1) at_ read =
      readString opening fuel (at_.advance (charText ascii c).length) (c :: read) := by
  rcases charText_cases ascii c with ⟨mark, htext, hmark, hshort⟩ | ⟨htext, hsmall⟩ |
    ⟨htext, hlarge⟩ | ⟨htext, hquote, hslash, hcontrol⟩
  · rw [htext] at hat ⊢
    exact readString_escape opening fuel hat hmark hshort read
  · rw [htext] at hat ⊢
    exact readString_unit opening fuel hat hsmall read
  · rw [htext] at hat ⊢
    exact readString_pair opening fuel hat hlarge read
  · rw [htext] at hat ⊢
    exact readString_plain opening fuel hat hquote hslash hcontrol read

theorem length_charText_pos (ascii : Bool) (c : Char) : 0 < (charText ascii c).length := by
  rcases charText_cases ascii c with ⟨mark, htext, -⟩ | ⟨htext, -⟩ | ⟨htext, -⟩ | ⟨htext, -⟩ <;>
    rw [htext]
  · exact Nat.succ_pos _
  · exact Nat.succ_pos _
  · exact Nat.succ_pos _
  · exact Nat.succ_pos _

/-- A string is read up to its closing quote. -/
theorem readString_flatMap (ascii : Bool) (opening : Nat) {fuel : Nat} {at_ : Cursor} {s rest : List Char}
    (hfuel : s.length < fuel) (hat : at_.rest = s.flatMap (charText ascii) ++ '"' :: rest)
    (read : List Char) :
    ∃ next, readString opening fuel at_ read = .ok (String.ofList (read.reverse ++ s), next) ∧
      next.rest = rest := by
  induction s generalizing fuel at_ read with
  | nil =>
    obtain ⟨fuel, rfl⟩ := Nat.exists_eq_succ_of_ne_zero (Nat.ne_of_gt hfuel)
    obtain ⟨text, offset⟩ := at_
    subst hat
    exact ⟨_, by rw [List.append_nil]; rfl, rfl⟩
  | cons c s ih =>
    obtain ⟨fuel, rfl⟩ := Nat.exists_eq_succ_of_ne_zero (Nat.ne_zero_of_lt hfuel)
    obtain ⟨d, more, hmore⟩ : ∃ d more, s.flatMap (charText ascii) ++ '"' :: rest = d :: more :=
      List.exists_cons_of_ne_nil (by simp)
    rw [List.flatMap_cons, List.append_assoc] at hat
    have hstep := readString_char ascii opening fuel (hmore ▸ hat) read
    have hafter : (at_.advance (charText ascii c).length).rest =
        s.flatMap (charText ascii) ++ '"' :: rest := by
      rw [Cursor.advance, hat, List.drop_left]
    obtain ⟨next, hread, hnext⟩ := ih (Nat.lt_of_succ_lt_succ hfuel) hafter (c :: read)
    refine ⟨next, ?_, hnext⟩
    rw [hstep, hread, List.reverse_cons, List.append_assoc]
    rfl

theorem length_le_flatMap_charText (ascii : Bool) (s : List Char) :
    s.length ≤ (s.flatMap (charText ascii)).length := by
  induction s with
  | nil => exact Nat.le_refl _
  | cons c s ih =>
    have hpos := length_charText_pos ascii c
    rw [List.flatMap_cons, List.length_append, List.length_cons]
    omega

theorem writeString_eq (ascii : Bool) (s : String) :
    writeString ascii s = '"' :: (s.toList.flatMap (charText ascii) ++ ['"']) := rfl

theorem readString_writeString {ascii : Bool} {at_ : Cursor} {s : String} {rest : List Char}
    (hat : at_.rest = writeString ascii s ++ rest) :
    ∃ next, readString at_.offset at_.rest.length (at_.advance 1) [] = .ok (s, next) ∧
      next.rest = rest := by
  rw [writeString_eq, List.cons_append, List.append_assoc, List.singleton_append] at hat
  have hfuel : s.toList.length < at_.rest.length := by
    have hle := length_le_flatMap_charText ascii s.toList
    rw [hat, List.length_cons, List.length_append]
    omega
  have hinside : (at_.advance 1).rest = s.toList.flatMap (charText ascii) ++ '"' :: rest := by
    rw [Cursor.advance, hat]
    rfl
  obtain ⟨next, hread, hnext⟩ := readString_flatMap ascii at_.offset hfuel hinside []
  refine ⟨next, ?_, hnext⟩
  rw [hread, List.reverse_nil, List.nil_append, String.ofList_toList]

theorem not_mem_hex (width n : Nat) : '\r' ∉ hex width n := by
  have hdigit : ∀ d < 16, hexDigit d ≠ '\r' := by decide
  induction width generalizing n with
  | zero => simp [hex]
  | succ width ih =>
    rw [hex, List.mem_append, List.mem_singleton, not_or]
    exact ⟨ih _, (hdigit (n % 16) (Nat.mod_lt _ (by omega))).symm⟩

theorem not_mem_unitEscape (unit : Nat) : '\r' ∉ unitEscape unit := by
  have hhex := not_mem_hex 4 unit
  simp [unitEscape, hhex]

theorem not_mem_charText (ascii : Bool) (c : Char) : '\r' ∉ charText ascii c := by
  rcases charText_cases ascii c with ⟨mark, htext, -, hshort⟩ | ⟨htext, -⟩ | ⟨htext, -⟩ |
    ⟨htext, -, -, hcontrol⟩ <;> rw [htext]
  · have hmark : mark ≠ '\r' := by
      rintro rfl
      cases hshort
    simp [hmark.symm]
  · exact not_mem_unitEscape c.toNat
  · rw [pairEscape, List.mem_append, not_or]
    exact ⟨not_mem_unitEscape _, not_mem_unitEscape _⟩
  · intro hmem
    rw [← List.mem_singleton.1 hmem] at hcontrol
    exact hcontrol (by decide)

theorem units_cons {c : Char} (h : c ≠ '\\') (rest : List Char) :
    units (c :: rest) = none :: units rest := by
  rw [units]
  · rintro _ _ _ _ _ rfl
    exact absurd rfl h
  · rintro _ _ rfl
    exact absurd rfl h

/-- What is written for a character is no half of a pair. -/
theorem hasHalf_charText (ascii : Bool) (c : Char) (rest : List Char) :
    hasHalf false (units (charText ascii c ++ rest)) = hasHalf false (units rest) := by
  have hvalid : c.toNat < 0xD800 ∨ 0xDFFF < c.toNat ∧ c.toNat < 0x110000 := c.valid
  rcases charText_cases ascii c with ⟨mark, htext, hmark, -⟩ | ⟨htext, hsmall⟩ |
    ⟨htext, hlarge⟩ | ⟨htext, -, hslash, -⟩ <;> rw [htext]
  · have hunits : units ('\\' :: mark :: rest) = none :: units rest := by
      rw [units]
      rintro _ _ _ _ _ h
      exact absurd h hmark
    simp only [List.cons_append, List.nil_append, hunits, hasHalf, Bool.false_or]
  · rw [units_unitEscape hsmall, hasHalf, if_neg (by omega)]
    have hfirst : (0xD800 ≤ c.toNat && c.toNat < 0xDC00) = false := by
      rw [Bool.and_eq_false_iff, decide_eq_false_iff_not, decide_eq_false_iff_not]
      omega
    rw [hfirst, Bool.false_or]
  · rw [pairEscape, List.append_assoc, units_unitEscape (by omega), units_unitEscape (by omega)]
    have hfirst : (0xD800 ≤ 0xD800 + (c.toNat - 0x10000) / 0x400 &&
        0xD800 + (c.toNat - 0x10000) / 0x400 < 0xDC00) = true := by
      rw [Bool.and_eq_true, decide_eq_true_eq, decide_eq_true_eq]
      omega
    rw [hasHalf, if_neg (by omega), hfirst, hasHalf, if_pos (by omega)]
    rfl
  · rw [List.singleton_append, units_cons hslash, hasHalf, Bool.false_or]

/-- A text of plain characters, and of characters as strings have them. -/
inductive IsWoven : List Char → Prop where
  | nil : IsWoven []
  | plain {c : Char} {s : List Char} (hslash : c ≠ '\\') (hreturn : c ≠ '\r') (h : IsWoven s) :
      IsWoven (c :: s)
  | char (ascii : Bool) (c : Char) {s : List Char} (h : IsWoven s) : IsWoven (charText ascii c ++ s)

namespace IsWoven

variable {s t : List Char}

theorem append (hs : IsWoven s) (ht : IsWoven t) : IsWoven (s ++ t) := by
  induction hs with
  | nil => exact ht
  | plain hslash hreturn _ ih => exact plain hslash hreturn ih
  | char ascii c _ ih =>
    rw [List.append_assoc]
    exact char ascii c ih

theorem of_plain (h : ∀ c ∈ s, c ≠ '\\' ∧ c ≠ '\r') : IsWoven s := by
  induction s with
  | nil => exact nil
  | cons c s ih =>
    obtain ⟨hc, hs⟩ := List.forall_mem_cons.1 h
    exact plain hc.1 hc.2 (ih hs)

theorem of_all (h : s.all (fun c => c != '\\' && c != '\r') = true) : IsWoven s := by
  refine of_plain fun c hc => ?_
  simpa only [Bool.and_eq_true, bne_iff_ne] using List.all_eq_true.1 h c hc

/-- A carriage return is never written as it is. -/
theorem not_mem (h : IsWoven s) : '\r' ∉ s := by
  induction h with
  | nil => exact List.not_mem_nil
  | plain _ hreturn _ ih =>
    rw [List.mem_cons, not_or]
    exact ⟨hreturn.symm, ih⟩
  | char ascii c _ ih =>
    rw [List.mem_append, not_or]
    exact ⟨not_mem_charText ascii c, ih⟩

theorem hasHalf (h : IsWoven s) : hasHalf false (units s) = false := by
  induction h with
  | nil => rfl
  | plain hslash _ _ ih => rw [units_cons hslash, Json.hasHalf, Bool.false_or, ih]
  | char ascii c _ ih => rw [hasHalf_charText, ih]

end IsWoven

theorem isWoven_writeString (ascii : Bool) (s : String) : IsWoven (writeString ascii s) := by
  rw [writeString_eq]
  refine .plain (by decide) (by decide) (.append ?_ (.plain (by decide) (by decide) .nil))
  induction s.toList with
  | nil => exact .nil
  | cons c s ih =>
    rw [List.flatMap_cons]
    exact .char ascii c ih

end Json

end ReminderFlow
