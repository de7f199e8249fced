import ReminderFlow.Proofs.Json.RoundTrip
import ReminderFlow.Proofs.Store

namespace ReminderFlow

theorem Text.unifyLines_of_not_mem {s : List Char} (h : '\r' ∉ s) : unifyLines s = s := by
  fun_induction unifyLines s with
  | case1 => rfl
  | case2 rest ih => simp at h
  | case3 c rest _ ih =>
    rw [List.mem_cons, not_or] at h
    rw [if_neg (Ne.symm h.1), ih h.2]

theorem Entry.readText_ofText {s : String} (h : '\r' ∉ s.toList) :
    readText (some (ofText s)) = .ok s := by
  have hutf8 : String.fromUTF8? s.toUTF8 = some s := by
    rw [String.fromUTF8?, String.toUTF8_eq_toByteArray, dif_pos s.isValidUTF8]
    rfl
  rw [ofText, readText, hutf8]
  simp only [Text.unifyLines_of_not_mem h, String.ofList_toList]

namespace Record

/-- The values in the record are proper, and no chain is told twice. -/
structure IsProper (r : Record) : Prop where
  input : r.input.IsProper
  output : r.output.IsProper
  names : (Members.keys r.currentStates).Nodup

theorem isProper_optional (s : Option String) : (optional s).IsProper := by
  cases s with
  | none => exact .null
  | some s => exact .str s

theorem isProper_statesJson {states : List (String × String)} (h : (Members.keys states).Nodup) :
    (statesJson states).IsProper := by
  refine .obj ?_ fun m hm => ?_
  · have hkeys : Members.keys (states.map fun m => (m.1, Value.str m.2)) = Members.keys states := by
      simp [Members.keys]
    rwa [hkeys]
  · obtain ⟨state, -, rfl⟩ := List.mem_map.1 hm
    exact .str state.2

theorem IsProper.toJson {r : Record} (h : r.IsProper) : r.toJson.IsProper := by
  have hnames : (Members.keys r.members).Nodup := by
    have hkeys : Members.keys r.members = ["execution_id", "status", "started_at", "deadline",
      "updated_at", "input", "current_states", "completed_at", "output", "error", "cause"] := rfl
    rw [hkeys]
    decide
  refine .obj hnames ?_
  simp only [members, List.forall_mem_cons]
  exact ⟨.str _, .str _, .str _, .str _, .str _, h.input, isProper_statesJson h.names,
    isProper_optional _, h.output, isProper_optional _, isProper_optional _, by simp⟩

theorem asTexts_statesJson (location : List String) (states : List (String × String)) :
    (statesJson states).asTexts location = .valid states := by
  rw [statesJson, Value.asTexts, List.map_map]
  induction states with
  | nil => rfl
  | cons m rest ih =>
    rw [List.map_cons, Checked.all, ih]
    rfl

theorem asOptionalText_optional (location : List String) (s : Option String) :
    (optional s).asOptionalText location = .valid s := by
  cases s <;> rfl

/-- A record is made of its members again. -/
theorem ofMembers_members (r : Record) : ofMembers r.members = .valid r := by
  simp only [ofMembers, members, requiredMember, optionalMember, List.lookup_cons, String.reduceBEq,
    Value.asText, asTexts_statesJson, asOptionalText_optional]
  rfl

/-- Whether the record is nested no deeper than records are read. -/
def isReadable (codec : Codec) (r : Record) : Bool := r.toJson.depth ≤ codec.readDepth

/-- The record is what its file is read as, unless it is nested too deep. -/
theorem read?_fileText {r : Record} (codec : Codec) (h : r.IsProper)
    (hshort : r.toJson.isShort = true) :
    read? codec (Store.fileText r) = if r.isReadable codec then some r else none := by
  have hread : Json.read (Store.fileText r) = .ok (.obj r.members) := by
    rw [Store.fileText, h.toJson.finiteOrNull]
    exact Json.read_pretty h.toJson hshort
  rw [read?, hread]
  simp only [ofMembers_members, isReadable, decide_eq_true_eq]
  rfl

theorem not_mem_fileText (r : Record) : '\r' ∉ (Store.fileText r).toList := by
  have htext : (Store.fileText r).toList =
      Json.writeValue ⟨false, some 2⟩ 0 r.toJson.finiteOrNull ++ ['\n'] := by
    rw [Store.fileText, String.toList_append, Json.pretty, String.toList_ofList]
    rfl
  rw [htext, List.mem_append, not_or]
  exact ⟨(Json.isWoven_writeValue ⟨false, some 2⟩ r.toJson.finiteOrNull 0).not_mem, by decide⟩

end Record

namespace Store

/-- What is read in the file of a record that has been written. -/
theorem readEntry_fileText {codec : Codec} {r : Record} (h : r.IsStorable codec) :
    readEntry codec (fileName r.executionId) (some (.ofText (fileText r))) =
      .ok (Record.read? codec (fileText r)) := by
  have hname : ¬Folder.nameLimit < (fileName r.executionId).utf8ByteSize := by
    have htemporary : (temporaryName r.executionId).utf8ByteSize =
        (fileName r.executionId).utf8ByteSize + ".tmp".utf8ByteSize := String.utf8ByteSize_append
    have hlimit := h.name
    omega
  rw [readEntry, if_neg hname, Entry.readText_ofText (Record.not_mem_fileText r)]

/-- A record that has been written is found, unless it is nested deeper than records are read. -/
theorem get_of_file? {s : Store} {r : Record}
    (hfile : s.file? r.executionId = some (.ofText (fileText r))) 
    (hstorable : r.IsStorable s.codec) (hproper : r.IsProper) :
    s.get r.executionId = .ok (if r.isReadable s.codec then some r else none) := by
  have hentry : s.folder.entry? (fileName r.executionId) = some (.ofText (fileText r)) := hfile
  rw [get, if_pos hstorable.id, hentry, readEntry_fileText hstorable,
    Record.read?_fileText s.codec hproper hstorable.short]

end Store

end ReminderFlow
