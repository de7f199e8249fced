import Mathlib.Data.String.Basic
import ReminderFlow.Proofs.Record

namespace ReminderFlow

namespace Record

/-- The text of the file of the record is read as the record again. -/
def Decodes (codec : Codec) (r : Record) : Prop := read? codec (Store.fileText r) = some r

theorem IsProper.decodes {codec : Codec} {r : Record} (h : r.IsProper)
    (hshort : r.toJson.isShort = true) (hreadable : r.isReadable codec = true) :
    r.Decodes codec := by
  rw [Decodes, read?_fileText codec h hshort, if_pos hreadable]

/-- Started earlier, or at the same time and with a smaller id. -/
def Precedes (a b : Record) : Prop :=
  a.startedAt < b.startedAt ∨ a.startedAt = b.startedAt ∧ a.executionId < b.executionId

theorem before_iff {a b : Record} : a.before b = true ↔
    a.startedAt < b.startedAt ∨ a.startedAt = b.startedAt ∧ a.executionId ≤ b.executionId := by
  simp [before]

theorem before_trans {a b c : Record} (h : a.before b = true) (h' : b.before c = true) :
    a.before c = true := by
  rw [before_iff] at *
  obtain hab | ⟨hab, hid⟩ := h
  · obtain hbc | ⟨hbc, -⟩ := h'
    · exact .inl (lt_trans hab hbc)
    · exact .inl (hbc ▸ hab)
  · obtain hbc | ⟨hbc, hid'⟩ := h'
    · exact .inl (hab ▸ hbc)
    · exact .inr ⟨hab.trans hbc, le_trans hid hid'⟩

theorem before_total (a b : Record) : (a.before b || b.before a) = true := by
  rw [Bool.or_eq_true, before_iff, before_iff]
  obtain hlt | heq | hgt := lt_trichotomy a.startedAt b.startedAt
  · exact .inl (.inl hlt)
  · obtain hid | hid := le_total a.executionId b.executionId
    · exact .inl (.inr ⟨heq, hid⟩)
    · exact .inr (.inr ⟨heq.symm, hid⟩)
  · exact .inr (.inl hgt)

theorem precedes_of_before {a b : Record} (h : a.before b = true)
    (hne : a.executionId ≠ b.executionId) : a.Precedes b := by
  obtain hlt | ⟨heq, hid⟩ := before_iff.1 h
  · exact .inl hlt
  · exact .inr ⟨heq, lt_of_le_of_ne hid hne⟩

/-- Records of distinct ids have one order only. -/
theorem pairwise_mergeSort {records : List Record}
    (h : (records.map executionId).Nodup) : (records.mergeSort before).Pairwise Precedes := by
  have hsorted : (records.mergeSort before).Pairwise fun a b => a.before b = true := by
    apply List.pairwise_mergeSort
    · intro a b c hab hbc
      exact before_trans hab hbc
    · exact before_total
  have hids : ((records.mergeSort before).map executionId).Nodup :=
    ((List.mergeSort_perm records before).map executionId).nodup_iff.2 h
  have hdistinct := List.pairwise_map.1 hids
  refine (hsorted.and hdistinct).imp ?_
  rintro a b ⟨hbefore, hne⟩
  exact precedes_of_before hbefore hne

end Record

namespace Store

inductive Operation where
  | put (r : Record) (mishap : Option Mishap)
  | get (id : String)
  | list

/-- A store with the records that have been put into it, the latest first. -/
structure History where
  store : Store
  log : List Record

namespace History

def after (h : History) : Operation → History
  | .put r mishap =>
    let (store, error) := h.store.putAmid r mishap
    ⟨store, if error.isNone then r :: h.log else h.log⟩
  | .get _ => h
  | .list => h

theorem codec_after (h : History) (op : Operation) : (h.after op).store.codec = h.store.codec := by
  cases op with
  | put r mishap => exact codec_putAmid h.store r mishap
  | get id => rfl
  | list => rfl

/-- What becomes of a store by one operation after the other. -/
def run (start : Store) (operations : List Operation) : History :=
  operations.foldl after ⟨start, []⟩

theorem codec_run (start : Store) (operations : List Operation) :
    (run start operations).store.codec = start.codec := by
  have hall (h : History) : (operations.foldl after h).store.codec = h.store.codec := by
    induction operations generalizing h with
    | nil => rfl
    | cons op rest ih => exact (ih _).trans (codec_after h op)
  exact hall _

end History

/-- The record that was last put under an id, where the latest records stand first. -/
def last? (id : String) (log : List Record) : Option Record :=
  log.find? fun r => r.executionId = id

/-- The last records of all ids, by the names of their files. -/
def book : List Record → List (String × Record)
  | [] => []
  | r :: log => Members.insert (fileName r.executionId) r (book log)

theorem last?_cons_self (r : Record) (log : List Record) :
    last? r.executionId (r :: log) = some r := by
  simp [last?]

theorem last?_cons_of_ne {id : String} {r : Record} (h : r.executionId ≠ id) (log : List Record) :
    last? id (r :: log) = last? id log := by
  simp [last?, h]

theorem mem_of_last? {id : String} {r : Record} {log : List Record} (h : last? id log = some r) :
    r ∈ log ∧ r.executionId = id :=
  ⟨List.mem_of_find?_eq_some h, by simpa using List.find?_some h⟩

theorem lookup_book (id : String) (log : List Record) :
    (book log).lookup (fileName id) = last? id log := by
  induction log with
  | nil => rfl
  | cons r log ih =>
    by_cases hid : r.executionId = id
    · rw [← hid, book, Members.lookup_insert_self, last?_cons_self]
    · have hname : fileName id ≠ fileName r.executionId := fun h => hid (fileName_injective h).symm
      rw [book, Members.lookup_insert_of_ne hname, last?_cons_of_ne hid, ih]

theorem nodup_keys_book (log : List Record) : (Members.keys (book log)).Nodup := by
  induction log with
  | nil => exact List.nodup_nil
  | cons r log ih => exact Members.nodup_insert _ _ ih

theorem fst_of_mem_book {m : String × Record} {log : List Record} (h : m ∈ book log) :
    m.1 = fileName m.2.executionId := by
  induction log with
  | nil => cases h
  | cons r log ih =>
    obtain rfl | hm := Members.mem_of_mem_insert h
    · rfl
    · exact ih hm

/-- The book holds exactly the last records. -/
theorem mem_book_iff {r : Record} {log : List Record} :
    (fileName r.executionId, r) ∈ book log ↔ last? r.executionId log = some r := by
  rw [← lookup_book]
  exact ⟨Members.lookup_of_mem (nodup_keys_book log), Members.mem_of_lookup⟩

/-- The files that are read are those of the last records, and nothing in the directory is a
directory itself. -/
structure Holds (s : Store) (log : List Record) : Prop where
  files : s.recordFiles = (book log).map fun m => (m.1, Entry.ofText (fileText m.2))
  storable : ∀ r ∈ log, r.IsStorable s.codec
  plain : ∀ e ∈ s.folder.entries, e.2 ≠ .directory

theorem holds_start {start : Store} (h : start.folder.entries = []) : Holds start [] where
  files := by
    rw [recordFiles, h]
    rfl
  storable := by simp
  plain := by simp [h]

/-- A write leaves no directory among the entries. -/
theorem Holds.plain_putAmid {s : Store} {log : List Record} (h : Holds s log) (r : Record)
    (mishap : Option Mishap) : ∀ e ∈ (s.putAmid r mishap).1.folder.entries, e.2 ≠ .directory := by
  intro e he
  obtain ⟨_, -, hentries⟩ | ⟨_, left, -, -, hentries⟩ | ⟨-, -, hentries⟩ := putAmid_cases s r mishap
  · exact h.plain e (hentries ▸ he)
  · rw [hentries] at he
    obtain rfl | he := Members.mem_of_mem_insert he
    · simp
    · exact h.plain e he
  · rw [hentries] at he
    obtain rfl | he := Members.mem_of_mem_insert he
    · simp [Entry.ofText]
    · exact h.plain e (List.mem_filter.1 he).1

theorem Holds.after {h : History} (hh : Holds h.store h.log) (op : Operation) :
    Holds (h.after op).store (h.after op).log := by
  cases op with
  | get id => exact hh
  | list => exact hh
  | put r mishap =>
    have hplain := hh.plain_putAmid r mishap
    have hcodec := History.codec_after h (.put r mishap)
    obtain ⟨hdone, hstorable, hfiles⟩ | ⟨herror, hfiles⟩ := putAmid_spec h.store r mishap
    · have hlog : (h.after (.put r mishap)).log = r :: h.log := by
        simp [History.after, hdone]
      rw [hlog]
      refine ⟨?_, hcodec ▸ List.forall_mem_cons.2 ⟨hstorable, hh.storable⟩, hplain⟩
      rw [book, Members.insert_map fun r => Entry.ofText (fileText r), ← hh.files]
      exact hfiles
    · have hlog : (h.after (.put r mishap)).log = h.log := by
        simp [History.after, herror]
      rw [hlog]
      exact ⟨hfiles.trans hh.files, hcodec ▸ hh.storable, hplain⟩

theorem holds_run {start : Store} (h : start.folder.entries = []) (operations : List Operation) :
    Holds (History.run start operations).store (History.run start operations).log := by
  have hall (first : History) (hfirst : Holds first.store first.log) :
      Holds (operations.foldl History.after first).store
        (operations.foldl History.after first).log := by
    induction operations generalizing first with
    | nil => exact hfirst
    | cons op rest ih => exact ih _ (hfirst.after op)
  exact hall _ (holds_start h)

theorem readEntry_none (codec : Codec) (name : String) : readEntry codec name none = .ok none := by
  rw [readEntry]
  split_ifs <;> rfl

theorem Holds.last?_eq_none {s : Store} {log : List Record} (h : Holds s log) {id : String}
    (hid : isId id = false) : last? id log = none := by
  cases hlast : last? id log with
  | none => rfl
  | some r =>
    obtain ⟨hmem, rfl⟩ := mem_of_last? hlast
    rw [(h.storable r hmem).id] at hid
    cases hid

theorem Holds.get {s : Store} {log : List Record} (h : Holds s log)
    (hdecodes : ∀ r ∈ log, r.Decodes s.codec) (id : String) : s.get id = .ok (last? id log) := by
  rw [get_eq]
  split_ifs with hid
  · rw [h.files, Members.lookup_map fun r => Entry.ofText (fileText r), lookup_book]
    cases hlast : last? id log with
    | none => exact readEntry_none _ _
    | some r =>
      obtain ⟨hmem, rfl⟩ := mem_of_last? hlast
      rw [Option.map_some, readEntry_fileText (h.storable r hmem), hdecodes r hmem]
  · rw [h.last?_eq_none (by simpa using hid)]

theorem mapM_readEntry {codec : Codec} {members : List (String × Record)}
    (h : ∀ m ∈ members, readEntry codec m.1 (some (.ofText (fileText m.2))) = .ok (some m.2)) :
    (members.map fun m => (m.1, Entry.ofText (fileText m.2))).mapM
      (fun e => readEntry codec e.1 (some e.2)) = .ok (members.map fun m => some m.2) := by
  induction members with
  | nil => rfl
  | cons m rest ih =>
    obtain ⟨hm, hrest⟩ := List.forall_mem_cons.1 h
    rw [List.map_cons, List.mapM_cons, hm, ih hrest]
    rfl

theorem Holds.list {s : Store} {log : List Record} (h : Holds s log)
    (hdecodes : ∀ r ∈ log, r.Decodes s.codec) :
    s.list = .ok (((book log).map Prod.snd).mergeSort Record.before) := by
  have heach : ∀ m ∈ book log,
      readEntry s.codec m.1 (some (.ofText (fileText m.2))) = .ok (some m.2) := by
    intro m hm
    have hname := fst_of_mem_book hm
    have hlast : last? m.2.executionId log = some m.2 := mem_book_iff.1 (hname ▸ hm)
    obtain ⟨hmem, -⟩ := mem_of_last? hlast
    rw [hname, readEntry_fileText (h.storable m.2 hmem), hdecodes m.2 hmem]
  have hrecords : ((book log).map fun m => some m.2).filterMap id = (book log).map Prod.snd := by
    rw [List.filterMap_map]
    exact congrFun List.filterMap_eq_map (book log)
  rw [list_eq, h.files, mapM_readEntry heach, Except.map, hrecords]

theorem mem_listing_iff {r : Record} {log : List Record} :
    r ∈ ((book log).map Prod.snd).mergeSort Record.before ↔
      last? r.executionId log = some r := by
  rw [List.mem_mergeSort, ← mem_book_iff, List.mem_map]
  constructor
  · rintro ⟨m, hm, rfl⟩
    rw [← fst_of_mem_book hm]
    exact hm
  · intro hm
    exact ⟨_, hm, rfl⟩

/-- No two of the last records have one id. -/
theorem nodup_ids_book (log : List Record) :
    (((book log).map Prod.snd).map Record.executionId).Nodup := by
  have hkeys : Members.keys (book log) =
      (((book log).map Prod.snd).map Record.executionId).map fileName := by
    rw [List.map_map, List.map_map]
    exact List.map_congr_left fun m hm => fst_of_mem_book hm
  have hnodup := nodup_keys_book log
  rw [hkeys] at hnodup
  exact hnodup.of_map

/-- What is read from the store is the map from the ids to the records that were last put under
them. -/
structure IsMap (s : Store) (log : List Record) : Prop where
  get : ∀ id, s.get id = .ok (last? id log)
  noId : ∀ id, isId id = false → last? id log = none
  list : ∃ records, s.list = .ok records ∧ records.Pairwise Record.Precedes ∧
    ∀ r, r ∈ records ↔ last? r.executionId log = some r

theorem Holds.isMap {s : Store} {log : List Record} (h : Holds s log)
    (hdecodes : ∀ r ∈ log, r.Decodes s.codec) : IsMap s log where
  get := h.get hdecodes
  noId := fun _ => h.last?_eq_none
  list := ⟨_, h.list hdecodes, Record.pairwise_mergeSort (nodup_ids_book log),
    fun _ => mem_listing_iff⟩

/-- The name of something in the directory itself, not in one above it or below it. -/
def IsPlain (name : String) : Prop := '/' ∉ name.toList ∧ name ≠ "." ∧ name ≠ ".."

theorem isPlain_append {id ending : String} (hid : isId id = true) (hslash : '/' ∉ ending.toList)
    (hlong : 2 ≤ ending.toList.length) : IsPlain (id ++ ending) := by
  rw [isId, Bool.and_eq_true] at hid
  obtain ⟨hne, hall⟩ := hid
  have hfirst : 0 < id.toList.length := by
    rw [List.length_pos_iff]
    intro hnil
    rw [String.toList_eq_nil_iff.1 hnil] at hne
    cases hne
  have hlength : 2 < (id ++ ending).toList.length := by
    rw [String.toList_append, List.length_append]
    omega
  refine ⟨?_, ?_, ?_⟩
  · rw [String.toList_append, List.mem_append, not_or]
    refine ⟨fun hmem => ?_, hslash⟩
    have hchar := List.all_eq_true.1 hall '/' hmem
    revert hchar
    decide
  · intro hdot
    rw [hdot] at hlength
    revert hlength
    decide
  · intro hdots
    rw [hdots] at hlength
    revert hlength
    decide

/-- What a write may do, whatever goes wrong outside of it. -/
structure WritesSafely (s : Store) (r : Record) (mishap : Option Mishap) : Prop where
  usual : mishap = none → s.putAmid r mishap = s.put r
  invalid : isId r.executionId = false →
    s.putAmid r mishap = (s, some (.invalidId r.executionId))
  failed : (s.putAmid r mishap).2 ≠ none →
    (∀ id, (s.putAmid r mishap).1.get id = s.get id) ∧ (s.putAmid r mishap).1.list = s.list
  others : ∀ id, id ≠ r.executionId → (s.putAmid r mishap).1.get id = s.get id
  inside : ∀ name, (s.putAmid r mishap).1.folder.entry? name ≠ s.folder.entry? name →
    (name = fileName r.executionId ∨ name = temporaryName r.executionId) ∧ IsPlain name

theorem entry?_putAmid (s : Store) (r : Record) (mishap : Option Mishap) {name : String}
    (hrecord : name ≠ fileName r.executionId) (htemporary : name ≠ temporaryName r.executionId) :
    (s.putAmid r mishap).1.folder.entry? name = s.folder.entry? name := by
  rw [Folder.entry?, Folder.entry?]
  obtain ⟨_, -, hentries⟩ | ⟨_, left, -, -, hentries⟩ | ⟨-, -, hentries⟩ := putAmid_cases s r mishap
  · rw [hentries]
  · rw [hentries, Members.lookup_insert_of_ne htemporary]
  · rw [hentries, Members.lookup_insert_of_ne hrecord, Members.lookup_erase_of_ne htemporary]

theorem putAmid_of_not_isId (s : Store) {r : Record} (mishap : Option Mishap)
    (h : isId r.executionId = false) :
    s.putAmid r mishap = (s, some (.invalidId r.executionId)) := by
  have hrefusal : refusal? s.codec r = some (.invalidId r.executionId) := by
    rw [refusal?, h]
    rfl
  rw [putAmid, hrefusal]

theorem writesSafely (s : Store) (r : Record) (mishap : Option Mishap) :
    WritesSafely s r mishap where
  usual := by
    rintro rfl
    exact putAmid_none s r
  invalid := putAmid_of_not_isId s mishap
  failed := by
    intro hfailed
    obtain ⟨hdone, -, -⟩ | ⟨-, hfiles⟩ := putAmid_spec s r mishap
    · exact absurd hdone hfailed
    · exact ⟨get_congr (codec_putAmid s r mishap) hfiles,
        list_congr (codec_putAmid s r mishap) hfiles⟩
  others := by
    intro id hne
    have hname : fileName id ≠ fileName r.executionId := fun h => hne (fileName_injective h)
    obtain ⟨-, -, hfiles⟩ | ⟨-, hfiles⟩ := putAmid_spec s r mishap
    · rw [get_eq, get_eq, codec_putAmid, hfiles, Members.lookup_insert_of_ne hname]
    · exact get_congr (codec_putAmid s r mishap) hfiles id
  inside := by
    intro name hchanged
    have hname : name = fileName r.executionId ∨ name = temporaryName r.executionId := by
      by_contra hneither
      obtain ⟨hrecord, htemporary⟩ := not_or.1 hneither
      exact hchanged (entry?_putAmid s r mishap hrecord htemporary)
    have hid : isId r.executionId = true := by
      by_contra hid
      rw [putAmid_of_not_isId s mishap (Bool.eq_false_iff.2 hid)] at hchanged
      exact hchanged rfl
    refine ⟨hname, ?_⟩
    obtain rfl | rfl := hname
    · exact isPlain_append hid (by decide) (by decide)
    · rw [temporaryName, fileName, String.append_assoc]
      exact isPlain_append hid (by decide) (by decide)

/-- A record that can be written is written, unless no directory can be made. -/
theorem Holds.put_storable {s : Store} {log : List Record} (h : Holds s log) {r : Record}
    (hr : r.IsStorable s.codec) (hfree : ∀ fault, s.folder ≠ .blocked fault) : (s.put r).2 = none := by
  have hmade : s.folder.made = .ok s.folder.entries := by
    cases hfolder : s.folder with
    | blocked fault => exact absurd hfolder (hfree fault)
    | absent => rfl
    | present entries => rfl
  have hfile (name : String) : isDirectoryAt s.folder.entries name = false := by
    rw [isDirectoryAt]
    split
    · next hfound => exact absurd rfl (h.plain _ (Members.mem_of_lookup hfound))
    · rfl
  simp [put, hr.id, hr.shallow, hr.short, hmade, hfile, Nat.not_lt.2 hr.name]

/-- A store that is fresh in the beginning is a map, whatever is done with it and whatever goes
wrong while records are written, as long as the texts of the records that were put into it can be
read back. The next write is a safe one, and it is done if the record can be written and nothing
goes wrong outside. -/
theorem implements_map {start : Store} (hstart : start.folder.entries = [])
    (operations : List Operation)
    (hdecodes : ∀ r ∈ (History.run start operations).log, r.Decodes start.codec) :
    IsMap (History.run start operations).store (History.run start operations).log ∧
      (∀ r mishap, WritesSafely (History.run start operations).store r mishap) ∧
      ∀ r : Record, r.IsStorable start.codec →
        (∀ fault, (History.run start operations).store.folder ≠ .blocked fault) →
        ((History.run start operations).store.put r).2 = none := by
  have hholds := holds_run hstart operations
  rw [← History.codec_run start operations] at hdecodes ⊢
  refine ⟨hholds.isMap hdecodes, fun r mishap => writesSafely _ r mishap, ?_⟩
  intro r hr hfree
  exact hholds.put_storable hr hfree

def waiting (id started : String) : Record where
  executionId := id
  status := "RUNNING"
  startedAt := started
  deadline := "2025-01-01T00:05:00+00:00"
  updatedAt := "2025-01-01T00:00:00+00:00"
  input := .obj [("preference", .str "email")]
  currentStates := [("", "Wait")]
  completedAt := none
  output := .null
  error := none
  cause := none

/-- Two records are put, one of them twice; an id that is none is refused, and one write breaks
off. -/
def rehearsal : List Operation :=
  [.list, .put (waiting "b" "05") none, .put (waiting "../secret" "00") none,
    .put (waiting "a" "02") none, .put (waiting "c" "03") (some (.writing (some "\x7b".toUTF8) .refused)),
    .put (waiting "a" "01") none, .get "a"]

theorem decodes_waiting (id started : String) : (waiting id started).Decodes .usual := by
  have hinput : (waiting id started).input.IsProper := .obj (by decide) (by simpa using .str _)
  have hnames : (Members.keys [("", "Wait")]).Nodup := by decide
  have hproper : (waiting id started).IsProper := ⟨hinput, .null, hnames⟩
  have hreadable : (waiting id started).isReadable .usual = true := by
    simp [waiting, Record.isReadable, Record.toJson, Record.members, Record.optional,
      Record.statesJson, Value.depth, Value.depthMembers, Codec.usual]
  have hshort : (waiting id started).toJson.isShort = true := rfl
  exact hproper.decodes hshort hreadable

theorem implements_map_rehearsed :
    (History.run (empty .usual) rehearsal).log = [waiting "a" "01", waiting "a" "02", waiting "b" "05"] ∧
    IsMap (History.run (empty .usual) rehearsal).store (History.run (empty .usual) rehearsal).log ∧
    (History.run (empty .usual) rehearsal).store.get "a" = .ok (some (waiting "a" "01")) ∧
    (History.run (empty .usual) rehearsal).store.get "c" = .ok none := by
  have hlog : (History.run (empty .usual) rehearsal).log =
      [waiting "a" "01", waiting "a" "02", waiting "b" "05"] := by rfl
  have hdecodes : ∀ r ∈ (History.run (empty .usual) rehearsal).log, r.Decodes .usual := by
    intro r hr
    rw [hlog] at hr
    simp only [List.mem_cons, List.not_mem_nil, or_false] at hr
    obtain rfl | rfl | rfl := hr
    · exact decodes_waiting "a" "01"
    · exact decodes_waiting "a" "02"
    · exact decodes_waiting "b" "05"
  obtain ⟨hmap, -, -⟩ := implements_map rfl rehearsal hdecodes
  refine ⟨hlog, hmap, ?_, ?_⟩
  · rw [hmap.get, hlog]
    rfl
  · rw [hmap.get, hlog]
    rfl

end Store

end ReminderFlow
