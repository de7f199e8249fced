import Mathlib.Data.List.TakeWhile
import ReminderFlow.Json.Reader

namespace ReminderFlow.Json

open Text

/-- More digits in a row than a whole number may have, and how many they are. -/
def HasLongNumber (text : List Char) (count : Nat) : Prop :=
  ∃ digits, digits <:+: text ∧ (∀ c ∈ digits, c.isDigit = true) ∧ digits.length = count ∧
    wholeLimit < count

/-- What comes of reading within a text: a place further on in it, or an error. -/
def Within {α : Type} (text : List Char) : Except ReadError (α × Cursor) → Prop
  | .ok (_, next) => next.rest <:+ text
  | .error (.integerTooLong count) => HasLongNumber text count
  | .error (.malformed ..) => True
  | .error .halfPair => False

variable {text : List Char} {at_ : Cursor}

theorem Cursor.suffix_advance (h : at_.rest <:+ text) (count : Nat) :
    (at_.advance count).rest <:+ text :=
  (List.drop_suffix count at_.rest).trans h

theorem Cursor.suffix_skipSpace (h : at_.rest <:+ text) : at_.skipSpace.rest <:+ text :=
  suffix_advance h _

theorem within_fail {α : Type} (fault : Fault) :
    Within text (at_.fail fault : Except ReadError (α × Cursor)) := trivial

theorem Within.bind {α β : Type} {read : Except ReadError (α × Cursor)}
    {more : α × Cursor → Except ReadError (β × Cursor)} (h : Within text read)
    (hmore : ∀ a next, next.rest <:+ text → Within text (more (a, next))) :
    Within text (read >>= more) := by
  cases read with
  | ok r => exact hmore r.1 r.2 h
  | error e => cases e <;> exact h

theorem within_readString (opening : Nat) (fuel : Nat) (read : List Char)
    (h : at_.rest <:+ text) : Within text (readString opening fuel at_ read) := by
  induction fuel generalizing at_ read with
  | zero => trivial
  | succ fuel ih =>
    have onward (count : Nat) (c : Char) :
        Within text (readString opening fuel (at_.advance count) (c :: read)) :=
      ih (c :: read) (Cursor.suffix_advance h count)
    rw [readString]
    split
    · trivial
    · exact Cursor.suffix_advance h 1
    · split
      · exact within_fail _
      · rename_i high more _
        generalize (if 0xD800 ≤ high ∧ high < 0xE000 then Char.ofNat 0xFFFD
          else Char.ofNat high) = single
        simp only
        split
        · split_ifs
          · split
            · exact within_fail _
            · split
              · exact onward 12 _
              · exact onward 6 _
          · exact onward 6 _
        · exact onward 6 _
    · split
      · exact onward 2 _
      · exact within_fail _
    · trivial
    · split_ifs
      · exact within_fail _
      · exact onward 1 _

theorem isDigit_of_mem_takeWhole {s : List Char} {c : Char} (h : c ∈ takeWhole s) :
    c.isDigit = true := by
  unfold takeWhole at h
  split at h
  · rw [List.mem_singleton.1 h]
    rfl
  · exact List.mem_takeWhile_imp h

theorem prefix_takeWhole (s : List Char) : takeWhole s <+: s := by
  unfold takeWhole
  split
  · exact ⟨_, rfl⟩
  · exact List.takeWhile_prefix _

theorem within_readNumber (negative : Bool) (h : at_.rest <:+ text) :
    Within text (readNumber negative at_) := by
  simp only [readNumber]
  split
  · exact Cursor.suffix_advance h _
  · split
    · split
      · rename_i hlong
        exact ⟨takeWhole at_.rest, (prefix_takeWhole at_.rest).isInfix.trans h.isInfix,
          fun _ => isDigit_of_mem_takeWhole, rfl, hlong⟩
      · exact Cursor.suffix_advance h _
    · exact Cursor.suffix_advance h _

theorem within_readPlain (h : at_.rest <:+ text) : Within text (readPlain at_) := by
  unfold readPlain
  split
  · exact Cursor.suffix_advance h _
  · split
    · split_ifs
      · exact within_readNumber true (Cursor.suffix_advance h 1)
      · exact within_fail _
    · split_ifs
      · exact within_readNumber false h
      · exact within_fail _
    · exact within_fail _

mutual

theorem within_readValue : (fuel : Nat) → {at_ : Cursor} → at_.rest <:+ text →
    Within text (readValue fuel at_)
  | 0, _, _ => within_fail _
  | fuel + 1, at_, h => by
    have hinside : (at_.advance 1).skipSpace.rest <:+ text :=
      Cursor.suffix_skipSpace (Cursor.suffix_advance h 1)
    rw [readValue]
    split
    · exact (within_readString _ _ _ (Cursor.suffix_advance h 1)).bind fun _ _ hnext => hnext
    · simp only
      split
      · exact Cursor.suffix_advance hinside 1
      · exact (within_readItems fuel hinside).bind fun _ _ hnext => hnext
    · simp only
      split
      · exact Cursor.suffix_advance hinside 1
      · exact (within_readMembers fuel hinside).bind fun _ _ hnext => hnext
    · exact within_readPlain h

theorem within_readItems : (fuel : Nat) → {at_ : Cursor} → at_.rest <:+ text →
    Within text (readItems fuel at_)
  | 0, _, _ => within_fail _
  | fuel + 1, at_, h => by
    rw [readItems]
    refine (within_readValue fuel h).bind fun value next hnext => ?_
    have hbehind : next.skipSpace.rest <:+ text := Cursor.suffix_skipSpace hnext
    simp only
    split
    · exact Cursor.suffix_advance hbehind 1
    · exact (within_readItems fuel (Cursor.suffix_skipSpace (Cursor.suffix_advance hbehind 1))).bind
        fun _ _ hlast => hlast
    · exact within_fail _

theorem within_readMembers : (fuel : Nat) → {at_ : Cursor} → at_.rest <:+ text →
    Within text (readMembers fuel at_)
  | 0, _, _ => within_fail _
  | fuel + 1, at_, h => by
    rw [readMembers]
    split
    · refine (within_readString _ _ _ (Cursor.suffix_advance h 1)).bind fun name next hnext => ?_
      have hcolon : next.skipSpace.rest <:+ text := Cursor.suffix_skipSpace hnext
      simp only
      split
      · refine (within_readValue fuel
          (Cursor.suffix_skipSpace (Cursor.suffix_advance hcolon 1))).bind fun value last hlast => ?_
        have hbehind : last.skipSpace.rest <:+ text := Cursor.suffix_skipSpace hlast
        simp only
        split
        · exact Cursor.suffix_advance hbehind 1
        · exact (within_readMembers fuel
            (Cursor.suffix_skipSpace (Cursor.suffix_advance hbehind 1))).bind fun _ _ hend => hend
        · exact within_fail _
      · exact within_fail _
    · exact within_fail _

end

theorem within_readList {text : List Char} {e : ReadError} (h : readList text = .error e) :
    Within text (.error e : Except ReadError (Value × Cursor)) := by
  unfold readList at h
  split_ifs at h
  · cases h
    trivial
  have hread : Within text (readValue (2 * text.length + 2) (Cursor.mk text 0).skipSpace) :=
    within_readValue _ (Cursor.suffix_skipSpace List.suffix_rfl)
  cases hvalue : readValue (2 * text.length + 2) (Cursor.mk text 0).skipSpace with
  | error first =>
    rw [hvalue] at h hread
    cases h
    exact hread
  | ok r =>
    rw [hvalue] at h
    simp only [bind, Except.bind] at h
    split_ifs at h
    · cases h
    · cases h
      trivial

/-- Whether half of a surrogate pair stands in a text is looked at when its value is known. -/
theorem read_eq_error {text : String} {e : ReadError} (h : read text = .error e) :
    readList text.toList = .error e ∨
      e = .halfPair ∧ hasHalf false (units text.toList) = true := by
  rw [read] at h
  cases hvalue : readList text.toList with
  | error first =>
    rw [hvalue] at h
    exact .inl h
  | ok v =>
    rw [hvalue] at h
    simp only [bind, Except.bind] at h
    split_ifs at h with hhalf
    · cases h
      exact .inr ⟨rfl, hhalf⟩
    · cases h

/-- A number that is called too long is one of the text. -/
theorem hasLongNumber_of_read {text : String} {count : Nat}
    (h : read text = .error (.integerTooLong count)) : HasLongNumber text.toList count := by
  obtain hlist | ⟨hhalf, -⟩ := read_eq_error h
  · exact within_readList hlist
  · cases hhalf

theorem hasHalf_of_read {text : String} (h : read text = .error .halfPair) :
    hasHalf false (units text.toList) = true := by
  obtain hlist | ⟨-, hhalf⟩ := read_eq_error h
  · exact (within_readList hlist).elim
  · exact hhalf

end ReminderFlow.Json
