import Mathlib.Tactic.Common
import ReminderFlow.Store

namespace ReminderFlow

namespace Members

variable {α : Type} {p : String → Bool} {key : String}

theorem lookup_erase_self (key : String) (members : List (String × α)) :
    (erase key members).lookup key = none := by
  rw [List.lookup_eq_none_iff]
  intro m hm
  have hne : m.1 ≠ key := of_decide_eq_true (List.mem_filter.1 hm).2
  exact bne_iff_ne.2 (Ne.symm hne)

theorem filter_insert_of_neg (h : p key = false) (value : α) (members : List (String × α)) :
    (insert key value members).filter (fun m => p m.1) = members.filter fun m => p m.1 := by
  induction members with
  | nil => simp [insert, h]
  | cons m rest ih =>
    obtain ⟨k, v⟩ := m
    by_cases hk : k = key
    · simp [insert, hk, h]
    · simp only [insert, if_neg hk, List.filter_cons, ih]

theorem filter_insert_of_pos (h : p key = true) (value : α) (members : List (String × α)) :
    (insert key value members).filter (fun m => p m.1) =
      insert key value (members.filter fun m => p m.1) := by
  induction members with
  | nil => simp [insert, h]
  | cons m rest ih =>
    obtain ⟨k, v⟩ := m
    by_cases hk : k = key
    · simp [insert, hk, h]
    · cases hp : p k with
      | true => simp [insert, hk, hp, ih]
      | false => simp [insert, hk, hp, ih]

theorem filter_erase_of_neg (h : p key = false) (members : List (String × α)) :
    (erase key members).filter (fun m => p m.1) = members.filter fun m => p m.1 := by
  rw [erase, List.filter_filter]
  apply List.filter_congr
  intro m hm
  by_cases hk : m.1 = key
  · simp [hk, h]
  · simp [hk]

theorem lookup_filter_of_pos (h : p key = true) (members : List (String × α)) :
    (members.filter fun m => p m.1).lookup key = members.lookup key := by
  induction members with
  | nil => rfl
  | cons m rest ih =>
    obtain ⟨k, v⟩ := m
    by_cases hk : key = k
    · subst hk
      simp [h]
    · have hne : (key == k) = false := beq_false_of_ne hk
      cases hp : p k with
      | true => simp [List.lookup_cons, hp, hne, ih]
      | false => simp [List.lookup_cons, hp, hne, ih]

theorem lookup_erase_of_ne {other : String} (h : other ≠ key) (members : List (String × α)) :
    (erase key members).lookup other = members.lookup other :=
  lookup_filter_of_pos (p := fun name => decide (name ≠ key)) (decide_eq_true h) members

/-- A member that is set and then taken away leaves no trace. -/
theorem erase_insert (value : α) (members : List (String × α)) :
    erase key (insert key value members) = erase key members := by
  induction members with
  | nil => simp [insert, erase]
  | cons m rest ih =>
    obtain ⟨k, v⟩ := m
    by_cases hk : k = key
    · simp [insert, erase, hk]
    · rw [insert, if_neg hk, erase, erase, List.filter_cons, List.filter_cons]
      rw [erase, erase] at ih
      rw [ih]

end Members

/-- What a store asks of a record that it takes. -/
structure Record.IsStorable (codec : Codec) (r : Record) : Prop where
  id : Store.isId r.executionId = true
  shallow : r.isShallow codec = true
  short : r.toJson.isShort = true
  name : (Store.temporaryName r.executionId).utf8ByteSize ≤ Folder.nameLimit

namespace Store

theorem fileName_injective {a b : String} (h : fileName a = fileName b) : a = b := by
  have hlist := congrArg String.toList h
  rw [fileName, fileName, String.toList_append, String.toList_append] at hlist
  exact String.toList_inj.1 (List.append_cancel_right hlist)

theorem fileName_ne_temporaryName (a b : String) : fileName a ≠ temporaryName b := by
  intro h
  have hlist := congrArg (fun s : String => s.toList.getLast?) h
  simp [fileName, temporaryName, extension] at hlist

def isRecordFile (name : String) : Bool := name.endsWith extension

theorem isRecordFile_iff {name : String} :
    isRecordFile name = true ↔ extension.toList <:+ name.toList := by
  have hslice : name.toSlice.endsWith extension = true ↔
      extension.toList <:+ name.toSlice.copy.toList := String.Slice.endsWith_string_iff
  rwa [String.copy_toSlice] at hslice

theorem isRecordFile_fileName (id : String) : isRecordFile (fileName id) = true := by
  rw [isRecordFile_iff, fileName, String.toList_append]
  exact List.suffix_append _ _

theorem isRecordFile_temporaryName (id : String) : isRecordFile (temporaryName id) = false := by
  rw [Bool.eq_false_iff]
  intro h
  obtain ⟨front, hfront⟩ := isRecordFile_iff.1 h
  have hlast := congrArg List.getLast? hfront
  simp [temporaryName, extension] at hlast

def recordsOf (entries : List (String × Entry)) : List (String × Entry) :=
  entries.filter fun e => isRecordFile e.1

/-- The files that are read, as they stand in the directory. -/
def recordFiles (s : Store) : List (String × Entry) := recordsOf s.folder.entries

theorem get_eq (s : Store) (id : String) :
    s.get id = if isId id then readEntry s.codec (fileName id) (s.recordFiles.lookup (fileName id))
      else .ok none := by
  rw [recordFiles, recordsOf, Members.lookup_filter_of_pos (isRecordFile_fileName id)]
  rfl

theorem list_eq (s : Store) :
    s.list = (s.recordFiles.mapM fun e => readEntry s.codec e.1 (some e.2)).map fun records =>
      (records.filterMap id).mergeSort Record.before := rfl

theorem get_congr {s s' : Store} (hcodec : s.codec = s'.codec)
    (h : s.recordFiles = s'.recordFiles) (id : String) : s.get id = s'.get id := by
  rw [get_eq, get_eq, hcodec, h]

theorem list_congr {s s' : Store} (hcodec : s.codec = s'.codec)
    (h : s.recordFiles = s'.recordFiles) : s.list = s'.list := by
  rw [list_eq, list_eq, hcodec, h]

/-- What may go wrong outside while a record is written, and what is reported of it. -/
inductive Mishap where
  /-- The directory cannot be made. -/
  | making (error : StoreError)
  /-- The temporary file cannot be written, or only a part of it can. -/
  | writing (left : Option ByteArray) (error : StoreError)
  /-- The temporary file cannot take the place of the other one. -/
  | replacing (error : StoreError)

/-- Why a record is not written at all. -/
def refusal? (codec : Codec) (r : Record) : Option StoreError :=
  if !isId r.executionId then some (.invalidId r.executionId)
  else if !r.isShallow codec then some .tooDeep
  else if !r.toJson.isShort then some .integerTooLong
  else none

def makeFolder (mishap : Option Mishap) (folder : Folder) :
    Except StoreError (List (String × Entry)) :=
  match mishap with
  | some (.making error) => .error error
  | _ => folder.made.mapError StoreError.blocked

def writeTemporary (mishap : Option Mishap) (r : Record) (entries : List (String × Entry)) :
    List (String × Entry) × Option StoreError :=
  let name := temporaryName r.executionId
  match mishap with
  | some (.writing none error) => (entries, some error)
  | some (.writing (some left) error) => (Members.insert name (.file left) entries, some error)
  | _ =>
    if Folder.nameLimit < name.utf8ByteSize then (entries, some .nameTooLong)
    else if isDirectoryAt entries name then (entries, some .isDirectory)
    else (Members.insert name (.ofText (fileText r)) entries, none)

/-- The entries with one of them in the place of another. -/
def rename (source target : String) (entries : List (String × Entry)) : List (String × Entry) :=
  match entries.lookup source with
  | some entry => Members.insert target entry (Members.erase source entries)
  | none => entries

def replaceFile (mishap : Option Mishap) (r : Record) (entries : List (String × Entry)) :
    List (String × Entry) × Option StoreError :=
  match mishap with
  | some (.replacing error) => (entries, some error)
  | _ =>
    if isDirectoryAt entries (fileName r.executionId) then (entries, some .isDirectory)
    else (rename (temporaryName r.executionId) (fileName r.executionId) entries, none)

/-- The store after a record is put into it while something may go wrong outside. -/
def putAmid (s : Store) (r : Record) (mishap : Option Mishap) : Store × Option StoreError :=
  match refusal? s.codec r with
  | some error => (s, some error)
  | none =>
    match makeFolder mishap s.folder with
    | .error error => (s, some error)
    | .ok entries =>
      match writeTemporary mishap r entries with
      | (written, some error) => ({ s with folder := .present written }, some error)
      | (written, none) =>
        let (replaced, error) := replaceFile mishap r written
        ({ s with folder := .present replaced }, error)

theorem rename_written (id : String) (entry : Entry) (entries : List (String × Entry)) :
    rename (temporaryName id) (fileName id) (Members.insert (temporaryName id) entry entries) =
      Members.insert (fileName id) entry (Members.erase (temporaryName id) entries) := by
  rw [rename, Members.lookup_insert_self, Members.erase_insert]

theorem isDirectoryAt_written (id : String) (entry : Entry) (entries : List (String × Entry)) :
    isDirectoryAt (Members.insert (temporaryName id) entry entries) (fileName id) =
      isDirectoryAt entries (fileName id) := by
  rw [isDirectoryAt, isDirectoryAt,
    Members.lookup_insert_of_ne (fileName_ne_temporaryName id id)]

theorem refusal?_eq_none_iff {codec : Codec} {r : Record} : refusal? codec r = none ↔
    isId r.executionId = true ∧ r.isShallow codec = true ∧ r.toJson.isShort = true := by
  rw [refusal?]
  split_ifs with hid hdeep hlong <;> simp_all

theorem put_of_refusal? (s : Store) {r : Record} {error : StoreError}
    (h : refusal? s.codec r = some error) : s.put r = (s, some error) := by
  rw [refusal?] at h
  split_ifs at h with hid hdeep hlong <;> cases h <;> simp [put, *]

/-- If nothing goes wrong outside, the steps are those of a put. -/
theorem putAmid_none (s : Store) (r : Record) : s.putAmid r none = s.put r := by
  cases hrefusal : refusal? s.codec r with
  | some error =>
    rw [put_of_refusal? s hrefusal, putAmid, hrefusal]
  | none =>
    obtain ⟨hid, hdeep, hlong⟩ := refusal?_eq_none_iff.1 hrefusal
    cases hmade : s.folder.made with
    | error fault =>
      simp [putAmid, hrefusal, put, hid, hdeep, hlong, makeFolder, hmade, Except.mapError]
    | ok entries =>
      simp only [putAmid, hrefusal, put, hid, hdeep, hlong, makeFolder, hmade, Except.mapError,
        writeTemporary, Bool.not_true, Bool.false_eq_true, if_false]
      split_ifs with hname htemporary hdirectory
      · rfl
      · rfl
      · simp [replaceFile, isDirectoryAt_written, hdirectory]
      · simp [replaceFile, isDirectoryAt_written, hdirectory, rename_written]

theorem entries_of_makeFolder {mishap : Option Mishap} {folder : Folder}
    {entries : List (String × Entry)} (h : makeFolder mishap folder = .ok entries) :
    folder.entries = entries := by
  have hmade : folder.made = .ok entries := by
    unfold makeFolder at h
    split at h
    · cases h
    · cases hmade : folder.made with
      | error fault => simp [hmade, Except.mapError] at h
      | ok made => simpa [hmade, Except.mapError] using h
  cases folder with
  | absent =>
    cases hmade
    rfl
  | present all =>
    cases hmade
    rfl
  | blocked fault => cases hmade

theorem writeTemporary_cases (mishap : Option Mishap) (r : Record)
    (entries : List (String × Entry)) :
    (∃ error, writeTemporary mishap r entries = (entries, some error)) ∨
      (∃ error left, writeTemporary mishap r entries =
        (Members.insert (temporaryName r.executionId) (.file left) entries, some error)) ∨
      (writeTemporary mishap r entries =
          (Members.insert (temporaryName r.executionId) (.ofText (fileText r)) entries, none) ∧
        (temporaryName r.executionId).utf8ByteSize ≤ Folder.nameLimit) := by
  unfold writeTemporary
  dsimp only
  split
  · exact .inl ⟨_, rfl⟩
  · exact .inr (.inl ⟨_, _, rfl⟩)
  · split_ifs with hname hdirectory
    · exact .inl ⟨_, rfl⟩
    · exact .inl ⟨_, rfl⟩
    · exact .inr (.inr ⟨rfl, Nat.not_lt.1 hname⟩)

theorem replaceFile_cases (mishap : Option Mishap) (r : Record) (entries : List (String × Entry)) :
    (∃ error, replaceFile mishap r entries = (entries, some error)) ∨
      replaceFile mishap r entries =
        (rename (temporaryName r.executionId) (fileName r.executionId) entries, none) := by
  unfold replaceFile
  split
  · exact .inl ⟨_, rfl⟩
  · split_ifs with hdirectory
    · exact .inl ⟨_, rfl⟩
    · exact .inr rfl

/-- All that a write can do to the entries: nothing, or something in the temporary file, and then it
fails; or the text of the record takes the place of its file. -/
theorem putAmid_cases (s : Store) (r : Record) (mishap : Option Mishap) :
    (∃ error, (s.putAmid r mishap).2 = some error ∧
      (s.putAmid r mishap).1.folder.entries = s.folder.entries) ∨
    (∃ error left, (s.putAmid r mishap).2 = some error ∧ isId r.executionId = true ∧
      (s.putAmid r mishap).1.folder.entries =
        Members.insert (temporaryName r.executionId) (.file left) s.folder.entries) ∨
    ((s.putAmid r mishap).2 = none ∧ r.IsStorable s.codec ∧
      (s.putAmid r mishap).1.folder.entries =
        Members.insert (fileName r.executionId) (.ofText (fileText r))
          (Members.erase (temporaryName r.executionId) s.folder.entries)) := by
  unfold putAmid
  cases hrefusal : refusal? s.codec r with
  | some error => exact .inl ⟨error, rfl, rfl⟩
  | none =>
  obtain ⟨hid, hdeep, hlong⟩ := refusal?_eq_none_iff.1 hrefusal
  cases hmade : makeFolder mishap s.folder with
  | error error => exact .inl ⟨error, rfl, rfl⟩
  | ok entries =>
  rw [entries_of_makeFolder hmade]
  dsimp only
  obtain ⟨error, hwritten⟩ | ⟨error, left, hwritten⟩ | ⟨hwritten, hname⟩ :=
    writeTemporary_cases mishap r entries
  · rw [hwritten]
    exact .inl ⟨error, rfl, rfl⟩
  · rw [hwritten]
    exact .inr (.inl ⟨error, left, rfl, hid, rfl⟩)
  · rw [hwritten]
    dsimp only
    obtain ⟨error, hreplaced⟩ | hreplaced := replaceFile_cases mishap r
      (Members.insert (temporaryName r.executionId) (.ofText (fileText r)) entries)
    · rw [hreplaced]
      exact .inr (.inl ⟨error, _, rfl, hid, rfl⟩)
    · rw [hreplaced, rename_written]
      exact .inr (.inr ⟨rfl, ⟨hid, hdeep, hlong, hname⟩, rfl⟩)

theorem codec_putAmid (s : Store) (r : Record) (mishap : Option Mishap) :
    (s.putAmid r mishap).1.codec = s.codec := by
  unfold putAmid
  cases refusal? s.codec r with
  | some error => rfl
  | none =>
    cases makeFolder mishap s.folder with
    | error error => rfl
    | ok entries =>
      dsimp only
      split <;> rfl

/-- A write changes the file of its record if it succeeds, and else none that is read. -/
theorem putAmid_spec (s : Store) (r : Record) (mishap : Option Mishap) :
    ((s.putAmid r mishap).2 = none ∧ r.IsStorable s.codec ∧ (s.putAmid r mishap).1.recordFiles =
      Members.insert (fileName r.executionId) (.ofText (fileText r)) s.recordFiles) ∨
    ((s.putAmid r mishap).2 ≠ none ∧ (s.putAmid r mishap).1.recordFiles = s.recordFiles) := by
  have htemporary := isRecordFile_temporaryName r.executionId
  obtain ⟨error, herror, hentries⟩ | ⟨error, left, herror, -, hentries⟩ | ⟨hdone, hstorable, hentries⟩ :=
    putAmid_cases s r mishap
  · refine .inr ⟨by simp [herror], ?_⟩
    rw [recordFiles, hentries, recordFiles]
  · refine .inr ⟨by simp [herror], ?_⟩
    rw [recordFiles, hentries, recordFiles, recordsOf, Members.filter_insert_of_neg htemporary,
      recordsOf]
  · refine .inl ⟨hdone, hstorable, ?_⟩
    have hrecord := isRecordFile_fileName r.executionId
    rw [recordFiles, hentries, recordFiles, recordsOf, Members.filter_insert_of_pos hrecord,
      Members.filter_erase_of_neg htemporary, recordsOf]

/-- The file in which the record of an execution is kept. -/
def file? (s : Store) (id : String) : Option Entry := s.folder.entry? (fileName id)

theorem file?_eq (s : Store) (id : String) : s.file? id = s.recordFiles.lookup (fileName id) := by
  rw [recordFiles, recordsOf, Members.lookup_filter_of_pos (isRecordFile_fileName id)]
  rfl

theorem put_spec (s : Store) (r : Record) :
    ((s.put r).2 = none ∧ r.IsStorable s.codec ∧
      (s.put r).1.file? r.executionId = some (.ofText (fileText r)) ∧
      ∀ id, id ≠ r.executionId → (s.put r).1.file? id = s.file? id) ∨
    ((s.put r).2 ≠ none ∧ ∀ id, (s.put r).1.file? id = s.file? id) := by
  have hspec := putAmid_spec s r none
  rw [putAmid_none] at hspec
  obtain ⟨hdone, hstorable, hfiles⟩ | ⟨herror, hfiles⟩ := hspec
  · refine .inl ⟨hdone, hstorable, ?_, fun id hne => ?_⟩
    · rw [file?_eq, hfiles]
      exact Members.lookup_insert_self _ _ _
    · have hname : fileName id ≠ fileName r.executionId := fun h => hne (fileName_injective h)
      rw [file?_eq, file?_eq, hfiles]
      exact Members.lookup_insert_of_ne hname _ _
  · refine .inr ⟨herror, fun id => ?_⟩
    rw [file?_eq, file?_eq, hfiles]

end Store

end ReminderFlow
