import ReminderFlow.Json.Writer
import ReminderFlow.Json.Reader
import ReminderFlow.Proofs.Number.Shortest

namespace ReminderFlow

namespace Text

theorem digitValue?_of_isDigit {c : Char} (h : c.isDigit = true) :
    digitValue? c = some (c.toNat - 0x30) := by
  have hrange := Char.isDigit_iff_toNat.1 h
  have hzero : '0'.toNat = 0x30 := rfl
  have hnine : '9'.toNat = 0x39 := rfl
  have hfirst : (decide (0x30 ≤ c.toNat) && decide (c.toNat < 0x30 + 10)) = true := by
    simp only [Bool.and_eq_true, decide_eq_true_eq]
    omega
  obtain ⟨more, hmore⟩ : ∃ more, zeroDigits = 0x30 :: more := ⟨_, rfl⟩
  simp only [digitValue?, hmore, List.find?_cons, hfirst, Option.map_some]

theorem foldl_digits (n : Nat) (s : List Char) :
    s.foldl (fun n c => 10 * n + (digitValue? c).getD 0) n = n * 10 ^ s.length + digitsValue s := by
  induction s generalizing n with
  | nil => simp [digitsValue]
  | cons c rest ih =>
    rw [digitsValue, List.foldl_cons, List.foldl_cons, ih, ih (10 * 0 + _), List.length_cons,
      Nat.pow_succ]
    ring

theorem digitsValue_append (before after : List Char) :
    digitsValue (before ++ after) = digitsValue before * 10 ^ after.length + digitsValue after := by
  rw [digitsValue, List.foldl_append, foldl_digits]
  rfl

theorem digitsValue_zeros (count : Nat) : digitsValue (NumberLayout.zeros count) = 0 := by
  induction count with
  | zero => rfl
  | succ n ih =>
    have hsplit : NumberLayout.zeros (n + 1) = ['0'] ++ NumberLayout.zeros n := rfl
    rw [hsplit, digitsValue_append, ih]
    have hzero : digitsValue ['0'] = 0 := by decide
    rw [hzero, Nat.zero_mul]

theorem isDigit_digitChar {d : Nat} (h : d < 10) : d.digitChar.isDigit = true := by
  rw [Nat.isDigit_digitChar]
  exact decide_eq_true h

theorem digitsValue_digitChar {d : Nat} (h : d < 10) : digitsValue [d.digitChar] = d := by
  rw [digitsValue, List.foldl_cons, List.foldl_nil, digitValue?_of_isDigit (isDigit_digitChar h)]
  have hall : ∀ d < 10, d.digitChar.toNat - 0x30 = d := by decide
  simp [hall d h]

theorem digitsValue_toDigits (n : Nat) : digitsValue (Nat.toDigits 10 n) = n := by
  induction n using Nat.strong_induction_on with
  | _ n ih =>
    rw [Nat.toDigits_eq_if (by omega)]
    split_ifs with hsmall
    · exact digitsValue_digitChar hsmall
    · rw [digitsValue_append, ih (n / 10) (by omega), digitsValue_digitChar (by omega)]
      simp only [List.length_singleton, Nat.pow_one]
      omega

theorem isDigit_of_mem_toDigits {n : Nat} {c : Char} (h : c ∈ Nat.toDigits 10 n) :
    c.isDigit = true := Nat.isDigit_of_mem_toDigits (by omega) (by omega) h

theorem length_toDigits_le {n count : Nat} (hcount : 0 < count) (h : n < tenTo count) :
    (Nat.toDigits 10 n).length ≤ count := (Nat.length_toDigits_le_iff (by omega) hcount).2 h

/-- Only the digits of zero start with a zero. -/
theorem head?_toDigits_ne {n : Nat} (h : 0 < n) : (Nat.toDigits 10 n).head? ≠ some '0' := by
  induction n using Nat.strong_induction_on with
  | _ n ih =>
    rw [Nat.toDigits_eq_if (by omega)]
    split_ifs with hsmall
    · have hall : ∀ d < 10, 0 < d → [d.digitChar].head? ≠ some '0' := by decide
      exact hall n hsmall h
    · cases hleading : Nat.toDigits 10 (n / 10) with
      | nil => exact absurd hleading Nat.toDigits_ne_nil
      | cons c digits =>
        have hstart := ih (n / 10) (by omega) (by omega)
        rwa [hleading] at hstart

end Text

namespace Json

open Text

/-- The text is empty, or its first character belongs to no number. -/
def EndsNumber (rest : List Char) : Prop :=
  ∀ c, rest.head? = some c → c.isDigit = false ∧ c ≠ '.' ∧ c ≠ 'e' ∧ c ≠ 'E'

/-- The text is empty, or does not start with a digit. -/
def EndsDigits (rest : List Char) : Prop := ∀ c, rest.head? = some c → c.isDigit = false

theorem EndsNumber.endsDigits {rest : List Char} (h : EndsNumber rest) : EndsDigits rest :=
  fun c hc => (h c hc).1

theorem endsDigits_cons {c : Char} (h : c.isDigit = false) (rest : List Char) :
    EndsDigits (c :: rest) := by
  intro d hd
  obtain rfl := Option.some.inj hd
  exact h

theorem takeWhile_of_ends {p : Char → Bool} {taken rest : List Char} (htaken : ∀ c ∈ taken, p c = true)
    (hrest : ∀ c, rest.head? = some c → p c = false) : (taken ++ rest).takeWhile p = taken := by
  rw [List.takeWhile_append_of_pos htaken]
  cases rest with
  | nil => exact List.append_nil taken
  | cons c rest =>
    rw [List.takeWhile_cons_of_neg (by simp [hrest c rfl]), List.append_nil]

theorem takeWhile_isDigit {digits rest : List Char} (hdigits : ∀ c ∈ digits, c.isDigit = true)
    (hrest : EndsDigits rest) : (digits ++ rest).takeWhile Char.isDigit = digits :=
  takeWhile_of_ends hdigits hrest

/-- Digits with the marks that stand among them, a digit first. -/
structure IsNumeral (text : List Char) : Prop where
  start : ∃ c more, text = c :: more ∧ c.isDigit = true
  chars : ∀ c ∈ text, c.isDigit = true ∨ c ∈ ['.', 'e', '+', '-']

/-- Digits that stand before the point: a zero alone, or no zero first. -/
structure IsWhole (whole : List Char) : Prop where
  digits : ∀ c ∈ whole, c.isDigit = true
  nonempty : whole ≠ []
  start : whole = ['0'] ∨ whole.head? ≠ some '0'

theorem IsWhole.first {c : Char} {digits : List Char} (h : IsWhole (c :: digits)) : IsWhole [c] := by
  refine ⟨fun d hd => ?_, by simp, ?_⟩
  · rw [List.mem_singleton.1 hd]
    exact h.digits c List.mem_cons_self
  · by_cases hc : c = '0'
    · exact .inl (by rw [hc])
    · exact .inr (by simpa using hc)

theorem takeWhole_append {whole rest : List Char} (h : IsWhole whole) (hrest : EndsDigits rest) :
    takeWhole (whole ++ rest) = whole := by
  rcases h.start with rfl | hstart
  · rfl
  · have htake := takeWhile_isDigit h.digits hrest
    unfold takeWhole
    split
    case h_1 tail heq =>
      cases whole with
      | nil => exact absurd rfl h.nonempty
      | cons c digits =>
        obtain ⟨rfl, -⟩ := List.cons.inj heq
        exact absurd rfl hstart
    case h_2 => exact htake

theorem takeFraction_append {fraction rest : List Char} (h : ∀ c ∈ fraction, c.isDigit = true)
    (hrest : EndsDigits rest) : takeFraction ('.' :: (fraction ++ rest)) = fraction :=
  takeWhile_isDigit h hrest

theorem takeFraction_of_ne {rest : List Char} (h : rest.head? ≠ some '.') : takeFraction rest = [] := by
  unfold takeFraction
  split
  · exact absurd rfl h
  · rfl

theorem takeExponent_of_ne {rest : List Char} (h : ∀ c, rest.head? = some c → c ≠ 'e' ∧ c ≠ 'E') :
    takeExponent rest = none := by
  cases rest with
  | nil => rfl
  | cons c rest =>
    obtain ⟨he, hE⟩ := h c rfl
    unfold takeExponent
    simp [he, hE]

/-- The power of ten with its sign. -/
theorem takeExponent_append (negative : Bool) {digits rest : List Char} (hne : digits ≠ [])
    (h : ∀ c ∈ digits, c.isDigit = true) (hrest : EndsDigits rest) :
    takeExponent ('e' :: (if negative then '-' else '+') :: (digits ++ rest)) =
      some (digits.length + 2, if negative then -(digitsValue digits : Int) else digitsValue digits) := by
  have htake := takeWhile_isDigit h hrest
  have hempty : digits.isEmpty = false := by simpa using hne
  cases negative with
  | true =>
    simp only [takeExponent, if_true, true_or, List.drop_succ_cons, List.drop_zero, htake, hempty,
      Bool.false_eq_true, if_false, List.head?_cons]
    rw [Nat.add_comm]
  | false =>
    simp only [takeExponent, Bool.false_eq_true, if_false, true_or, if_true, List.drop_succ_cons,
      List.drop_zero, htake, hempty, List.head?_cons]
    rw [Nat.add_comm]
    simp

/-- A point with the digits behind it, unless there are none. -/
def fractionText : List Char → List Char
  | [] => []
  | c :: rest => '.' :: c :: rest

theorem mem_fractionText {fraction : List Char} (h : ∀ c ∈ fraction, c.isDigit = true) {c : Char}
    (hc : c ∈ fractionText fraction) : c.isDigit = true ∨ c ∈ ['.', 'e', '+', '-'] := by
  cases fraction with
  | nil => cases hc
  | cons d digits =>
    rcases List.mem_cons.1 hc with rfl | hc
    · exact .inr (by simp)
    · exact .inl (h c hc)

theorem takeFraction_fractionText {fraction rest : List Char}
    (h : ∀ c ∈ fraction, c.isDigit = true) (hrest : EndsDigits rest) (hpoint : rest.head? ≠ some '.') :
    takeFraction (fractionText fraction ++ rest) = fraction := by
  cases fraction with
  | nil => exact takeFraction_of_ne hpoint
  | cons c digits => exact takeFraction_append h hrest

theorem length_fractionText (fraction : List Char) :
    (fractionText fraction).length = if fraction.isEmpty then 0 else fraction.length + 1 := by
  cases fraction <;> rfl

theorem endsDigits_fractionText (fraction : List Char) {rest : List Char} (h : EndsDigits rest) :
    EndsDigits (fractionText fraction ++ rest) := by
  cases fraction with
  | nil => exact h
  | cons c digits => exact endsDigits_cons (by decide) _

/-- The parts of a number as they are taken one after the other. -/
theorem parts_of_number {at_ : Cursor} {whole fraction rest : List Char} (hwhole : IsWhole whole)
    (hfraction : ∀ c ∈ fraction, c.isDigit = true) (hrest : EndsDigits rest)
    (hpoint : rest.head? ≠ some '.') (hat : at_.rest = whole ++ (fractionText fraction ++ rest)) :
    takeWhole at_.rest = whole ∧ takeFraction (at_.rest.drop whole.length) = fraction ∧
      at_.rest.drop (whole.length + (if fraction.isEmpty then 0 else fraction.length + 1)) = rest := by
  rw [hat]
  refine ⟨takeWhole_append hwhole (endsDigits_fractionText fraction hrest), ?_, ?_⟩
  · rw [List.drop_left]
    exact takeFraction_fractionText hfraction hrest hpoint
  · rw [← length_fractionText, ← List.length_append, ← List.append_assoc, List.drop_left]

theorem readNumber_whole (negative : Bool) {at_ : Cursor} {whole rest : List Char}
    (hwhole : IsWhole whole) (hrest : EndsNumber rest) (hat : at_.rest = whole ++ rest)
    (hshort : whole.length ≤ wholeLimit) :
    readNumber negative at_ = .ok
      (.int (if negative then -(digitsValue whole : Int) else digitsValue whole),
        at_.advance whole.length) := by
  have hpoint : rest.head? ≠ some '.' := fun h => (hrest '.' h).2.1 rfl
  have hnone : ∀ c ∈ ([] : List Char), c.isDigit = true := by simp
  obtain ⟨htake, hfraction, hdrop⟩ := parts_of_number hwhole hnone hrest.endsDigits hpoint hat
  have hexponent := takeExponent_of_ne fun c hc => (hrest c hc).2.2
  simp only [readNumber, htake, hfraction, hdrop, hexponent]
  rw [List.isEmpty_nil, if_pos rfl, if_neg (Nat.not_lt.2 hshort)]

theorem readNumber_fraction (negative : Bool) {at_ : Cursor} {whole fraction rest : List Char}
    (hwhole : IsWhole whole) (hfraction : ∀ c ∈ fraction, c.isDigit = true) (hne : fraction ≠ [])
    (hrest : EndsNumber rest) (hat : at_.rest = whole ++ '.' :: (fraction ++ rest)) :
    ∃ next, readNumber negative at_ = .ok (.float
        (Double.ofDecimal negative (digitsValue (whole ++ fraction)) (-fraction.length)), next) ∧
      next.rest = rest := by
  have hpoint : rest.head? ≠ some '.' := fun h => (hrest '.' h).2.1 rfl
  have htext : at_.rest = whole ++ (fractionText fraction ++ rest) := by
    rw [hat]
    cases fraction with
    | nil => exact absurd rfl hne
    | cons c digits => rfl
  obtain ⟨htake, hfound, hdrop⟩ := parts_of_number hwhole hfraction hrest.endsDigits hpoint htext
  have hexponent := takeExponent_of_ne fun c hc => (hrest c hc).2.2
  have hempty : fraction.isEmpty = false := by simpa using hne
  simp only [readNumber, htake, hfound, hdrop, hexponent]
  rw [hempty, if_neg Bool.false_ne_true]
  refine ⟨_, rfl, ?_⟩
  rwa [hempty] at hdrop

theorem readNumber_power (negative : Bool) {below : Bool} {at_ : Cursor}
    {whole fraction power rest : List Char} (hwhole : IsWhole whole)
    (hfraction : ∀ c ∈ fraction, c.isDigit = true) (hpower : ∀ c ∈ power, c.isDigit = true)
    (hne : power ≠ []) (hrest : EndsDigits rest)
    (hat : at_.rest = whole ++ (fractionText fraction ++
      'e' :: (if below then '-' else '+') :: (power ++ rest))) :
    ∃ next, readNumber negative at_ = .ok (.float
        (Double.ofDecimal negative (digitsValue (whole ++ fraction))
          ((if below then -(digitsValue power : Int) else digitsValue power) - fraction.length)), next) ∧
      next.rest = rest := by
  obtain ⟨htake, hfound, hdrop⟩ := parts_of_number hwhole hfraction
    (endsDigits_cons (by decide) _) (by simp) hat
  have hexponent := takeExponent_append below hne hpower hrest
  simp only [readNumber, htake, hfound, hdrop, hexponent]
  refine ⟨_, rfl, ?_⟩
  have hskip : ('e' :: (if below then '-' else '+') :: (power ++ rest)).drop (power.length + 2) =
      rest := by
    rw [List.drop_succ_cons, List.drop_succ_cons, List.drop_left]
  rw [Cursor.advance, ← List.drop_drop, hdrop, hskip]

end Json

namespace NumberLayout

open Json Text

theorem isDigit_of_mem_zeros {count : Nat} {c : Char} (h : c ∈ zeros count) : c.isDigit = true := by
  rw [List.eq_of_mem_replicate h]
  rfl

theorem length_zeros (count : Nat) : (zeros count).length = count := List.length_replicate

theorem digitsValue_append_zeros (digits : List Char) (count : Nat) :
    digitsValue (digits ++ zeros count) = digitsValue digits * 10 ^ count := by
  rw [digitsValue_append, digitsValue_zeros, length_zeros, Nat.add_zero]

/-- Digits that are zero alone or do not start with a zero; the zero has its place before the
point. -/
structure IsLeading (digits : List Char) (leading : Int) : Prop where
  whole : IsWhole digits
  zero : digits.head? = some '0' → leading = 0

/-- What is written with a point among the digits: the same digits, with zeros before or behind. -/
structure Positional (digits : List Char) (leading : Int) (text whole fraction : List Char)
    (zeros : Nat) : Prop where
  split : text = whole ++ '.' :: fraction
  before : IsWhole whole
  behind : ∀ c ∈ fraction, c.isDigit = true
  nonempty : fraction ≠ []
  value : digitsValue (whole ++ fraction) = digitsValue digits * 10 ^ zeros
  exponent : -(fraction.length : Int) + zeros = leading - digits.length + 1

theorem isWhole_zero : IsWhole ['0'] := by
  refine ⟨fun c hc => ?_, by simp, .inl rfl⟩
  rw [List.mem_singleton.1 hc]
  rfl

/-- The point is before all digits. -/
theorem positional_before {digits : List Char} {leading : Int} (h : IsLeading digits leading)
    (hneg : leading < 0) :
    Positional digits leading (positional true digits leading) ['0']
      (zeros (-leading - 1).toNat ++ digits) 0 := by
  refine ⟨?_, isWhole_zero, fun c hc => ?_, ?_, ?_, ?_⟩
  · rw [positional, if_pos hneg]
    rfl
  · rcases List.mem_append.1 hc with hc | hc
    · exact isDigit_of_mem_zeros hc
    · exact h.whole.digits c hc
  · exact List.append_ne_nil_of_right_ne_nil _ h.whole.nonempty
  · have hzeros : ['0'] ++ zeros (-leading - 1).toNat = zeros ((-leading - 1).toNat + 1) := rfl
    rw [← List.append_assoc, digitsValue_append, hzeros, digitsValue_zeros]
    simp
  · rw [List.length_append, length_zeros]
    push_cast
    omega

/-- The point is behind all digits, and a zero behind it. -/
theorem positional_behind {digits : List Char} {leading : Int} (h : IsLeading digits leading)
    (hneg : ¬leading < 0) (hshort : digits.length ≤ leading.toNat + 1) :
    Positional digits leading (positional true digits leading)
      (digits ++ zeros (leading.toNat + 1 - digits.length)) ['0']
      (leading.toNat + 1 - digits.length + 1) := by
  have hdrop : digits.drop (leading.toNat + 1) = [] := List.drop_eq_nil_of_le hshort
  have htake : (digits ++ zeros (leading.toNat + 1 - digits.length)).take (leading.toNat + 1) =
      digits ++ zeros (leading.toNat + 1 - digits.length) := by
    apply List.take_of_length_le
    rw [List.length_append, length_zeros]
    omega
  refine ⟨?_, ⟨fun c hc => ?_, ?_, ?_⟩, ?_, by simp, ?_, ?_⟩
  · simp [positional, hneg, hdrop, htake]
  · rcases List.mem_append.1 hc with hc | hc
    · exact h.whole.digits c hc
    · exact isDigit_of_mem_zeros hc
  · exact List.append_ne_nil_of_left_ne_nil h.whole.nonempty _
  · rcases h.whole.start with rfl | hstart
    · have hzero := h.zero rfl
      subst hzero
      exact .inl rfl
    · refine .inr ?_
      cases digits with
      | nil => exact absurd rfl h.whole.nonempty
      | cons c rest => exact hstart
  · intro c hc
    rw [List.mem_singleton.1 hc]
    rfl
  · have hzero : ['0'] = zeros 1 := rfl
    rw [hzero, digitsValue_append_zeros, digitsValue_append_zeros, Nat.mul_assoc, ← Nat.pow_add]
  · rw [List.length_singleton]
    push_cast
    omega

/-- The point is among the digits. -/
theorem positional_among {digits : List Char} {leading : Int} (h : IsLeading digits leading)
    (hneg : ¬leading < 0) (hlong : leading.toNat + 1 < digits.length) :
    Positional digits leading (positional true digits leading)
      (digits.take (leading.toNat + 1)) (digits.drop (leading.toNat + 1)) 0 := by
  have hne : digits.drop (leading.toNat + 1) ≠ [] := by
    intro hnil
    have hle := List.drop_eq_nil_iff.1 hnil
    omega
  have hzeros : zeros (leading.toNat + 1 - digits.length) = [] := by
    rw [Nat.sub_eq_zero_of_le hlong.le]
    rfl
  refine ⟨?_, ⟨fun c hc => ?_, ?_, ?_⟩, fun c hc => ?_, hne, ?_, ?_⟩
  · simp [positional, hneg, hne, hzeros]
  · exact h.whole.digits c (List.mem_of_mem_take hc)
  · intro hnil
    have hlength := congrArg List.length hnil
    rw [List.length_take, List.length_nil] at hlength
    omega
  · rcases h.whole.start with rfl | hstart
    · simp at hlong
    · refine .inr ?_
      rwa [List.head?_take, if_neg (by omega)]
  · exact h.whole.digits c (List.mem_of_mem_drop hc)
  · rw [List.take_append_drop, Nat.pow_zero, Nat.mul_one]
  · rw [List.length_drop]
    push_cast
    omega

theorem exists_positional {digits : List Char} {leading : Int} (h : IsLeading digits leading) :
    ∃ whole fraction zeros,
      Positional digits leading (positional true digits leading) whole fraction zeros := by
  by_cases hneg : leading < 0
  · exact ⟨_, _, _, positional_before h hneg⟩
  · rcases Nat.lt_or_ge (leading.toNat + 1) digits.length with hlong | hshort
    · exact ⟨_, _, _, positional_among h hneg hlong⟩
    · exact ⟨_, _, _, positional_behind h hneg hshort⟩

theorem isWhole_toDigits (n : Nat) : IsWhole (Nat.toDigits 10 n) := by
  refine ⟨fun c hc => isDigit_of_mem_toDigits hc, Nat.toDigits_ne_nil, ?_⟩
  rcases Nat.eq_zero_or_pos n with rfl | hpos
  · exact .inl rfl
  · exact .inr (head?_toDigits_ne hpos)

theorem isLeading_shortest (rank : Nat) :
    IsLeading (Double.shortest rank).digits.repr.toList (Double.shortest rank).leading := by
  rw [Nat.toList_repr]
  refine ⟨isWhole_toDigits _, fun hzero => ?_⟩
  rcases Nat.eq_zero_or_pos rank with rfl | hpos
  · rfl
  · exact absurd hzero (head?_toDigits_ne (Double.nearest_shortest hpos).2)

theorem ofDecimal_shortest (negative : Bool) (rank : Fin Double.ranks) (zeros : Nat) {exponent : Int}
    (h : exponent + zeros = (Double.shortest rank).exponent) :
    Double.ofDecimal negative ((Double.shortest rank).digits * 10 ^ zeros) exponent =
      .finite negative rank := by
  obtain ⟨rank, hrank⟩ := rank
  rcases Nat.eq_zero_or_pos rank with rfl | hpos
  · have hzero : (Double.shortest 0).digits * 10 ^ zeros = 0 := Nat.zero_mul _
    rw [hzero, Double.ofDecimal, if_pos (.inl rfl)]
    rfl
  · obtain ⟨hnearest, hdigits⟩ := Double.nearest_shortest hpos
    rw [← h] at hnearest
    exact Double.ofDecimal_of_nearest negative hnearest.of_zeros hpos hrank
      (Nat.mul_pos hdigits (Nat.pow_pos (by omega)))

/-- The digits of an exponent, with zeros before them. -/
theorem digitsValue_power (count n : Nat) :
    digitsValue (zeros count ++ n.repr.toList) = n := by
  rw [digitsValue_append, digitsValue_zeros, Nat.toList_repr, digitsValue_toDigits]
  omega

theorem magnitude_document (rank : Nat) :
    document.magnitude rank =
      if (Double.shortest rank).leading < -4 ∨ 16 ≤ (Double.shortest rank).leading then
        scientific (Double.shortest rank).digits.repr.toList (Double.shortest rank).leading
      else positional true (Double.shortest rank).digits.repr.toList (Double.shortest rank).leading :=
  rfl

theorem scientific_cons (c : Char) (digits : List Char) (leading : Int) :
    scientific (c :: digits) leading =
      [c] ++ (fractionText digits ++ 'e' :: (if leading < 0 then '-' else '+') ::
        (zeros (2 - leading.natAbs.repr.toList.length) ++ leading.natAbs.repr.toList)) := by
  cases digits <;> simp [scientific, fractionText]

theorem readNumber_scientific (negative : Bool) {digits rest : List Char} {leading : Int}
    {at_ : Cursor} (h : IsWhole digits) (hrest : EndsDigits rest)
    (hat : at_.rest = scientific digits leading ++ rest) :
    ∃ next, readNumber negative at_ = .ok (.float
        (Double.ofDecimal negative (digitsValue digits) (leading - digits.length + 1)), next) ∧
      next.rest = rest := by
  cases digits with
  | nil => exact absurd rfl h.nonempty
  | cons c digits =>
    rw [scientific_cons] at hat
    have hvalue := digitsValue_power (2 - leading.natAbs.repr.toList.length) leading.natAbs
    have hpower (d : Char)
        (hd : d ∈ zeros (2 - leading.natAbs.repr.toList.length) ++ leading.natAbs.repr.toList) :
        d.isDigit = true := by
      rcases List.mem_append.1 hd with hd | hd
      · exact isDigit_of_mem_zeros hd
      · rw [Nat.toList_repr] at hd
        exact isDigit_of_mem_toDigits hd
    have hne : zeros (2 - leading.natAbs.repr.toList.length) ++ leading.natAbs.repr.toList ≠ [] := by
      apply List.append_ne_nil_of_right_ne_nil
      rw [Nat.toList_repr]
      exact Nat.toDigits_ne_nil
    generalize zeros (2 - leading.natAbs.repr.toList.length) ++ leading.natAbs.repr.toList = power
      at hat hvalue hpower hne
    have htext : at_.rest = [c] ++ (fractionText digits ++
        'e' :: (if decide (leading < 0) then '-' else '+') :: (power ++ rest)) := by
      rw [hat]
      simp
    obtain ⟨next, hread, hnext⟩ := readNumber_power negative h.first
      (List.forall_mem_cons.1 h.digits).2 hpower hne hrest htext
    refine ⟨next, ?_, hnext⟩
    have hexponent : (if decide (leading < 0) then -(digitsValue power : Int) else digitsValue power) -
        digits.length = leading - (c :: digits).length + 1 := by
      rw [hvalue, List.length_cons, Nat.cast_succ]
      simp only [decide_eq_true_eq]
      split_ifs <;> omega
    rw [hread, hexponent]
    rfl

/-- A magnitude that is written in the shortest way is read back. -/
theorem readNumber_magnitude (negative : Bool) (rank : Fin Double.ranks) {at_ : Cursor}
    {rest : List Char} (hrest : EndsNumber rest)
    (hat : at_.rest = document.magnitude rank ++ rest) :
    ∃ next, readNumber negative at_ = .ok (.float (.finite negative rank), next) ∧
      next.rest = rest := by
  have hleading := isLeading_shortest rank
  have hvalue : digitsValue (Double.shortest rank).digits.repr.toList =
      (Double.shortest rank).digits := by
    rw [Nat.toList_repr, digitsValue_toDigits]
  have hexponent : (Double.shortest rank).leading -
      (Double.shortest rank).digits.repr.toList.length + 1 = (Double.shortest rank).exponent := by
    rw [String.length_toList, Decimal.leading]
    omega
  rw [magnitude_document] at hat
  split_ifs at hat with hscientific
  · obtain ⟨next, hread, hnext⟩ :=
      readNumber_scientific negative hleading.whole hrest.endsDigits hat
    have hshortest := ofDecimal_shortest negative rank 0 (Int.add_zero _)
    rw [Nat.pow_zero, Nat.mul_one] at hshortest
    refine ⟨next, ?_, hnext⟩
    rw [hread, hvalue, hexponent, hshortest]
  · obtain ⟨whole, fraction, zeros, h⟩ := exists_positional hleading
    rw [h.split, List.append_assoc, List.cons_append] at hat
    obtain ⟨next, hread, hnext⟩ :=
      readNumber_fraction negative h.before h.behind h.nonempty hrest hat
    refine ⟨next, ?_, hnext⟩
    rw [hread, h.value, hvalue, ofDecimal_shortest negative rank zeros (h.exponent.trans hexponent)]

theorem isNumeral_magnitude (rank : Nat) : IsNumeral (document.magnitude rank) := by
  have hleading := isLeading_shortest rank
  rw [magnitude_document]
  split_ifs
  · generalize (Double.shortest rank).digits.repr.toList = digits at hleading
    cases digits with
    | nil => exact absurd rfl hleading.whole.nonempty
    | cons c digits =>
      rw [scientific_cons]
      refine ⟨⟨c, _, rfl, hleading.whole.digits c List.mem_cons_self⟩, fun d hd => ?_⟩
      simp only [List.mem_append, List.mem_cons, List.not_mem_nil, or_false] at hd
      rcases hd with rfl | hd | rfl | rfl | hd | hd
      · exact .inl (hleading.whole.digits d List.mem_cons_self)
      · exact mem_fractionText (List.forall_mem_cons.1 hleading.whole.digits).2 hd
      · exact .inr (by simp)
      · refine .inr ?_
        split_ifs <;> simp
      · exact .inl (isDigit_of_mem_zeros hd)
      · rw [Nat.toList_repr] at hd
        exact .inl (isDigit_of_mem_toDigits hd)
  · obtain ⟨whole, fraction, zeros, h⟩ := exists_positional hleading
    rw [h.split]
    refine ⟨?_, fun d hd => ?_⟩
    · obtain ⟨c, more, rfl⟩ := List.exists_cons_of_ne_nil h.before.nonempty
      exact ⟨c, _, rfl, h.before.digits c List.mem_cons_self⟩
    · rcases List.mem_append.1 hd with hd | hd
      · exact .inl (h.before.digits d hd)
      · rcases List.mem_cons.1 hd with rfl | hd
        · exact .inr (by simp)
        · exact .inl (h.behind d hd)

end NumberLayout

namespace Json

open Text

theorem takeWord?_of_start {s : List Char} (h : s.take 2 ∉ words.map fun w => w.1.take 2) :
    takeWord? s = none := by
  have hlength : ∀ word ∈ words, 2 ≤ word.1.length := by decide
  apply List.find?_eq_none.2
  intro word hword hinitial
  obtain ⟨more, rfl⟩ := List.isPrefixOf_iff_prefix.1 hinitial
  rw [List.take_append_of_le_length (hlength word hword)] at h
  exact h (List.mem_map_of_mem hword)

theorem takeWord?_of_isDigit {c : Char} (h : c.isDigit = true) (rest : List Char) :
    takeWord? (c :: rest) = none := by
  have hfirst : (words.map fun w => w.1.take 2).all
      (fun start => start.head?.all fun d => !d.isDigit) = true := by decide
  apply takeWord?_of_start
  intro hmem
  have hc : (!c.isDigit) = true := List.all_eq_true.1 hfirst _ hmem
  rw [h] at hc
  cases hc

theorem takeWord?_of_negative {c : Char} (h : c.isDigit = true) (rest : List Char) :
    takeWord? ('-' :: c :: rest) = none := by
  have hsecond : (words.map fun w => w.1.take 2).all
      (fun start => start[1]?.all fun d => !d.isDigit) = true := by decide
  apply takeWord?_of_start
  intro hmem
  have hc : (!c.isDigit) = true := List.all_eq_true.1 hsecond _ hmem
  rw [h] at hc
  cases hc

def signed (negative : Bool) (text : List Char) : List Char :=
  if negative then '-' :: text else text

theorem readPlain_signed (negative : Bool) {at_ : Cursor} {text rest : List Char}
    (h : IsNumeral text) (hat : at_.rest = signed negative text ++ rest) :
    ∃ here, readPlain at_ = readNumber negative here ∧ here.rest = text ++ rest := by
  obtain ⟨c, more, rfl, hc⟩ := h.start
  cases negative with
  | true =>
    refine ⟨at_.advance 1, ?_, by rw [Cursor.advance, hat]; rfl⟩
    have htext : at_.rest = '-' :: c :: (more ++ rest) := hat
    unfold readPlain
    rw [htext, takeWord?_of_negative hc]
    simp only [hc, if_true]
  | false =>
    refine ⟨at_, ?_, hat⟩
    have htext : at_.rest = c :: (more ++ rest) := hat
    have hminus : c ≠ '-' := by
      rintro rfl
      revert hc
      decide
    unfold readPlain
    rw [htext, takeWord?_of_isDigit hc]
    simp [hminus, hc]

theorem toList_toString (n : Int) :
    (toString n).toList = signed (n < 0) (Nat.toDigits 10 n.natAbs) := by
  rw [Int.toString_eq_repr, Int.repr_eq_if]
  split_ifs with h
  · have habs : n.toNat = n.natAbs := by omega
    rw [Nat.toList_repr, habs, signed, if_neg (by simpa using h)]
  · have habs : (-n).toNat = n.natAbs := by omega
    rw [String.toList_append, Nat.toList_repr, habs, signed, if_pos (by simpa using h)]
    rfl

theorem toList_write_finite (negative : Bool) (rank : Fin Double.ranks) :
    (NumberLayout.document.write (.finite negative rank)).toList =
      signed negative (NumberLayout.document.magnitude rank) := by
  rw [NumberLayout.write, String.toList_ofList]
  rfl

theorem isNumeral_toDigits (n : Nat) : IsNumeral (Nat.toDigits 10 n) := by
  refine ⟨?_, fun c hc => .inl (isDigit_of_mem_toDigits hc)⟩
  obtain ⟨c, more, heq⟩ := List.exists_cons_of_ne_nil (Nat.toDigits_ne_nil (n := n) (b := 10))
  exact ⟨c, more, heq, isDigit_of_mem_toDigits (heq ▸ List.mem_cons_self)⟩

theorem readPlain_int {n : Int} (hshort : n.natAbs < tenTo wholeLimit) {at_ : Cursor}
    {rest : List Char} (hrest : EndsNumber rest) (hat : at_.rest = (toString n).toList ++ rest) :
    ∃ next, readPlain at_ = .ok (.int n, next) ∧ next.rest = rest := by
  rw [toList_toString] at hat
  obtain ⟨here, hread, hhere⟩ := readPlain_signed _ (isNumeral_toDigits _) hat
  have hlength := length_toDigits_le (by decide) hshort
  refine ⟨here.advance (Nat.toDigits 10 n.natAbs).length, ?_, ?_⟩
  · rw [hread, readNumber_whole _ (NumberLayout.isWhole_toDigits _) hrest hhere hlength,
      digitsValue_toDigits]
    congr 3
    simp only [decide_eq_true_eq]
    split_ifs <;> omega
  · rw [Cursor.advance, hhere, List.drop_left]

theorem readPlain_float {x : Double} (hx : x.isFinite = true) {at_ : Cursor} {rest : List Char}
    (hrest : EndsNumber rest) (hat : at_.rest = (NumberLayout.document.write x).toList ++ rest) :
    ∃ next, readPlain at_ = .ok (.float x, next) ∧ next.rest = rest := by
  cases x with
  | finite negative rank =>
    rw [toList_write_finite] at hat
    obtain ⟨here, hread, hhere⟩ := readPlain_signed _ (NumberLayout.isNumeral_magnitude rank) hat
    rw [hread]
    exact NumberLayout.readNumber_magnitude negative rank hrest hhere
  | infinite negative => cases hx
  | nan => cases hx

end Json

end ReminderFlow
