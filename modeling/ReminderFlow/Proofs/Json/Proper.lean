import Mathlib.Data.List.Nodup
import Mathlib.Data.List.Perm.Subperm
import ReminderFlow.Json.Finite
import ReminderFlow.Json.Writer

namespace ReminderFlow

namespace Members

variable {α : Type}

theorem mem_keys_insert {key name : String} {value : α} {members : List (String × α)} :
    name ∈ keys (insert key value members) ↔ name = key ∨ name ∈ keys members := by
  induction members with
  | nil => simp [insert, keys]
  | cons m rest ih =>
    obtain ⟨k, v⟩ := m
    by_cases hk : k = key
    · subst hk
      simp [insert, keys]
    · have hinsert : insert key value ((k, v) :: rest) = (k, v) :: insert key value rest := by
        rw [insert, if_neg hk]
      have hcons (more : List (String × α)) : keys ((k, v) :: more) = k :: keys more := rfl
      rw [hinsert, hcons, hcons, List.mem_cons, List.mem_cons, ih]
      exact or_left_comm

theorem nodup_insert (key : String) (value : α) {members : List (String × α)}
    (h : (keys members).Nodup) : (keys (insert key value members)).Nodup := by
  induction members with
  | nil => exact List.nodup_singleton key
  | cons m rest ih =>
    obtain ⟨k, v⟩ := m
    obtain ⟨hnot, hrest⟩ := List.nodup_cons.1 h
    by_cases hk : k = key
    · have hinsert : insert key value ((k, v) :: rest) = (k, value) :: rest := by
        rw [insert, if_pos hk]
      rw [hinsert]
      exact h
    · have hinsert : insert key value ((k, v) :: rest) = (k, v) :: insert key value rest := by
        rw [insert, if_neg hk]
      rw [hinsert]
      refine List.nodup_cons.2 ⟨fun hmem => ?_, ih hrest⟩
      exact (mem_keys_insert.1 hmem).elim hk hnot

theorem nodup_override (more : List (String × α)) {members : List (String × α)}
    (h : (keys members).Nodup) : (keys (override members more)).Nodup := by
  induction more generalizing members with
  | nil => exact h
  | cons m rest ih => exact ih (nodup_insert m.1 m.2 h)

theorem nodup_ofList (pairs : List (String × α)) : (keys (ofList pairs)).Nodup :=
  nodup_override pairs List.nodup_nil

theorem nodup_erase (key : String) {members : List (String × α)} (h : (keys members).Nodup) :
    (keys (erase key members)).Nodup :=
  h.sublist (List.filter_sublist.map _)

/-- A member of what is set is one of the members or the new one. -/
theorem mem_of_mem_insert {key : String} {value : α} {m : String × α}
    {members : List (String × α)} (h : m ∈ insert key value members) :
    m = (key, value) ∨ m ∈ members := by
  induction members with
  | nil => exact .inl (List.mem_singleton.1 h)
  | cons first rest ih =>
    obtain ⟨k, v⟩ := first
    by_cases hk : k = key
    · rw [insert, if_pos hk, hk] at h
      rcases List.mem_cons.1 h with hm | hm
      · exact .inl hm
      · exact .inr (List.mem_cons_of_mem _ hm)
    · rw [insert, if_neg hk] at h
      rcases List.mem_cons.1 h with hm | hm
      · exact .inr (hm ▸ List.mem_cons_self)
      · exact (ih hm).imp_right (List.mem_cons_of_mem _)

theorem mem_of_mem_override {m : String × α} {more members : List (String × α)}
    (h : m ∈ override members more) : m ∈ members ∨ m ∈ more := by
  induction more generalizing members with
  | nil => exact .inl h
  | cons first rest ih =>
    rcases ih h with hm | hm
    · rcases mem_of_mem_insert hm with heq | hm
      · exact .inr (heq ▸ List.mem_cons_self)
      · exact .inl hm
    · exact .inr (List.mem_cons_of_mem _ hm)

theorem insert_of_not_mem {key : String} (value : α) {members : List (String × α)}
    (h : key ∉ keys members) : insert key value members = members ++ [(key, value)] := by
  induction members with
  | nil => rfl
  | cons m rest ih =>
    obtain ⟨k, v⟩ := m
    obtain ⟨hk, hrest⟩ := not_or.1 (mt List.mem_cons.2 h)
    rw [insert, if_neg (Ne.symm hk), ih hrest]
    rfl

theorem override_of_nodup {members more : List (String × α)} (h : (keys (members ++ more)).Nodup) :
    override members more = members ++ more := by
  induction more generalizing members with
  | nil => exact (List.append_nil members).symm
  | cons m rest ih =>
    have hsplit : members ++ m :: rest = (members ++ [m]) ++ rest := List.append_cons members m rest
    have hnot : m.1 ∉ keys members := by
      intro hmem
      have hall : (keys members ++ m.1 :: keys rest).Nodup := by
        have hkeys : keys (members ++ m :: rest) = keys members ++ m.1 :: keys rest :=
          List.map_append
        rwa [← hkeys]
      exact (List.nodup_append.1 hall).2.2 _ hmem _ List.mem_cons_self rfl
    have hinsert : insert m.1 m.2 members = members ++ [m] := insert_of_not_mem m.2 hnot
    rw [override, List.foldl_cons, hinsert, hsplit]
    exact ih (hsplit ▸ h)

/-- Members with distinct names stay as they are. -/
theorem ofList_of_nodup {members : List (String × α)} (h : (keys members).Nodup) :
    ofList members = members := override_of_nodup (List.nil_append members ▸ h)

theorem mem_of_lookup {key : String} {value : α} {members : List (String × α)}
    (h : members.lookup key = some value) : (key, value) ∈ members := by
  obtain ⟨before, after, rfl, -⟩ := List.lookup_eq_some_iff.1 h
  simp

theorem lookup_of_mem {key : String} {value : α} {members : List (String × α)}
    (hkeys : (keys members).Nodup) (h : (key, value) ∈ members) : members.lookup key = some value := by
  induction members with
  | nil => simp at h
  | cons p rest ih =>
    obtain ⟨hp, hrest⟩ := List.nodup_cons.1 hkeys
    rcases List.mem_cons.1 h with rfl | h
    · exact List.lookup_cons_self
    · have hne : key ≠ p.1 := by
        rintro rfl
        exact hp (List.mem_map.2 ⟨_, h, rfl⟩)
      rw [List.lookup_cons, beq_false_of_ne hne]
      exact ih hrest h

theorem mem_keys_iff {name : String} {members : List (String × α)} :
    name ∈ keys members ↔ ∃ value, members.lookup name = some value := by
  constructor
  · intro h
    cases hlookup : members.lookup name with
    | some value => exact ⟨value, rfl⟩
    | none =>
      obtain ⟨m, hm, rfl⟩ := List.mem_map.1 h
      have hne := List.lookup_eq_none_iff.1 hlookup m hm
      simp at hne
  · rintro ⟨value, hvalue⟩
    exact List.mem_map.2 ⟨_, mem_of_lookup hvalue, rfl⟩

/-- Members with the same distinct names are equally many. -/
theorem length_eq_of_mem_iff {members others : List (String × α)}
    (hmembers : (keys members).Nodup) (hothers : (keys others).Nodup)
    (h : ∀ name, name ∈ keys members ↔ name ∈ keys others) : members.length = others.length := by
  have hperm : (keys members).Perm (keys others) := (List.perm_ext_iff_of_nodup hmembers hothers).2 h
  have hlength := hperm.length_eq
  rwa [keys, keys, List.length_map, List.length_map] at hlength

/-- Names that are all among no more others are the others. -/
theorem mem_keys_of_subset {members others : List (String × α)} (hmembers : (keys members).Nodup)
    (hlength : others.length ≤ members.length) (h : ∀ name ∈ keys members, name ∈ keys others)
    {name : String} (hname : name ∈ keys others) : name ∈ keys members := by
  have hle : (keys others).length ≤ (keys members).length := by
    rwa [keys, keys, List.length_map, List.length_map]
  have hperm := (List.subperm_of_subset hmembers h).perm_of_length_le hle
  exact hperm.mem_iff.2 hname

/-- The order of members with distinct names does not matter for what is found. -/
theorem lookup_of_perm {members others : List (String × α)} (hmembers : (keys members).Nodup)
    (h : members.Perm others) (name : String) : members.lookup name = others.lookup name := by
  have hothers : (keys others).Nodup := (h.map Prod.fst).nodup_iff.1 hmembers
  apply Option.ext
  intro value
  constructor
  · intro hvalue
    exact lookup_of_mem hothers (h.mem_iff.1 (mem_of_lookup hvalue))
  · intro hvalue
    exact lookup_of_mem hmembers (h.mem_iff.2 (mem_of_lookup hvalue))

theorem keys_map {β : Type} (f : α → β) (members : List (String × α)) :
    keys (members.map fun m => (m.1, f m.2)) = keys members := by
  rw [keys, keys, List.map_map]
  rfl

theorem lookup_map {β : Type} (f : α → β) (name : String) (members : List (String × α)) :
    (members.map fun m => (m.1, f m.2)).lookup name = (members.lookup name).map f := by
  induction members with
  | nil => rfl
  | cons m rest ih =>
    rw [List.map_cons, List.lookup_cons, List.lookup_cons]
    cases name == m.1 with
    | true => rfl
    | false => exact ih

theorem insert_map {β : Type} (f : α → β) (key : String) (value : α)
    (members : List (String × α)) : (insert key value members).map (fun m => (m.1, f m.2)) =
      insert key (f value) (members.map fun m => (m.1, f m.2)) := by
  induction members with
  | nil => rfl
  | cons m rest ih =>
    obtain ⟨k, v⟩ := m
    by_cases hk : k = key
    · simp [insert, hk]
    · simp [insert, hk, ih]

/-- The names stay if one of them is set. -/
theorem keys_insert_of_mem {key : String} (value : α) {members : List (String × α)}
    (h : key ∈ keys members) : keys (insert key value members) = keys members := by
  induction members with
  | nil => simp [keys] at h
  | cons m rest ih =>
    obtain ⟨k, v⟩ := m
    by_cases hk : k = key
    · simp [insert, hk, keys]
    · have hrest : key ∈ keys rest := (List.mem_cons.1 h).resolve_left (Ne.symm hk)
      have hcons (w : α) (more : List (String × α)) : keys ((k, w) :: more) = k :: keys more := rfl
      rw [insert, if_neg hk, hcons, hcons, ih hrest]

/-- The second of two values that are set under a name wins. -/
theorem insert_insert (key : String) (first second : α) (members : List (String × α)) :
    insert key second (insert key first members) = insert key second members := by
  induction members with
  | nil => simp [insert]
  | cons m rest ih =>
    obtain ⟨k, v⟩ := m
    by_cases hk : k = key
    · simp [insert, hk]
    · simp [insert, hk, ih]

/-- To set a member to what it is changes nothing. -/
theorem insert_of_lookup {key : String} {value : α} {members : List (String × α)}
    (h : members.lookup key = some value) : insert key value members = members := by
  induction members with
  | nil => simp at h
  | cons m rest ih =>
    obtain ⟨k, v⟩ := m
    by_cases hk : k = key
    · have hv : v = value := by simpa [hk] using h
      simp [insert, hk, hv]
    · have hne : (key == k) = false := by simpa using Ne.symm hk
      rw [List.lookup_cons, hne] at h
      rw [insert, if_neg hk, ih h]

end Members

namespace Value

/-- Every double is finite, and no object holds a name twice. -/
inductive IsProper : Value → Prop
  | null : IsProper .null
  | bool (b : Bool) : IsProper (.bool b)
  | int (n : Int) : IsProper (.int n)
  | float {x : Double} (finite : x.isFinite = true) : IsProper (.float x)
  | str (s : String) : IsProper (.str s)
  | arr {items : List Value} (each : ∀ v ∈ items, IsProper v) : IsProper (.arr items)
  | obj {members : List (String × Value)} (names : (Members.keys members).Nodup)
      (each : ∀ m ∈ members, IsProper m.2) : IsProper (.obj members)

theorem allShort_iff {items : List Value} :
    allShort items = true ↔ ∀ v ∈ items, v.isShort = true := by
  induction items with
  | nil => simp [allShort]
  | cons v rest ih => rw [allShort, Bool.and_eq_true, ih, List.forall_mem_cons]

theorem allShortMembers_iff {members : List (String × Value)} :
    allShortMembers members = true ↔ ∀ m ∈ members, m.2.isShort = true := by
  induction members with
  | nil => simp [allShortMembers]
  | cons m rest ih =>
    obtain ⟨k, v⟩ := m
    rw [allShortMembers, Bool.and_eq_true, ih, List.forall_mem_cons]

theorem finiteItems_of_forall {items : List Value} (h : ∀ v ∈ items, v.finiteOrNull = v) :
    finiteItems items = items := by
  induction items with
  | nil => rfl
  | cons v rest ih =>
    obtain ⟨hv, hrest⟩ := List.forall_mem_cons.1 h
    rw [finiteItems, hv, ih hrest]

theorem finiteMembers_of_forall {members : List (String × Value)}
    (h : ∀ m ∈ members, m.2.finiteOrNull = m.2) : finiteMembers members = members := by
  induction members with
  | nil => rfl
  | cons m rest ih =>
    obtain ⟨hm, hrest⟩ := List.forall_mem_cons.1 h
    obtain ⟨k, v⟩ := m
    rw [finiteMembers, hm, ih hrest]

/-- In a proper value there is nothing to be written as null instead. -/
theorem IsProper.finiteOrNull {v : Value} (h : v.IsProper) : v.finiteOrNull = v := by
  induction h with
  | float finite => rw [Value.finiteOrNull, if_pos finite]
  | arr _ ih => rw [Value.finiteOrNull, finiteItems_of_forall ih]
  | obj _ _ ih => rw [Value.finiteOrNull, finiteMembers_of_forall ih]
  | _ => rfl

end Value

end ReminderFlow
