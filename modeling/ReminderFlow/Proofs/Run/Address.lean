import ReminderFlow.Proofs.Run.Visit

namespace ReminderFlow.Chain

variable {knows : String → Bool} {branch name : String} {c d next : Chain} {address : List Nat}

/-- The chain at an address and its name are determined. -/
theorem Reaches.unique (h : Reaches branch c address name d) {other : String} {d' : Chain}
    (h' : Reaches branch c address other d') : name = other ∧ d = d' := by
  induction h with
  | here branch c =>
    cases h'
    exact ⟨rfl, rfl⟩
  | down chosen further ih =>
    cases h' with
    | down chosen' further' =>
      obtain rfl := Option.some.inj (chosen.symm.trans chosen')
      exact ih further'

/-- A chain further down has another name than the one on top. -/
theorem Reaches.name_ne {i : Nat} {rest : List Nat} (h : Reaches branch c (i :: rest) name d) :
    name ≠ branch := by
  rintro rfl
  cases h with
  | down chosen further => exact not_extends_branchName _ _ _ further.name_extends

/-- Two chains of one tree never have the same name, however their states are called. -/
theorem Reaches.address_unique (h : Reaches branch c address name d) {other : List Nat}
    {d' : Chain} (h' : Reaches branch c other name d') : address = other := by
  induction h generalizing other with
  | here branch c =>
    cases other with
    | nil => rfl
    | cons => exact absurd rfl h'.name_ne
  | @down branch name stop branches i child d rest chosen further ih =>
    cases h' with
    | here => exact absurd rfl (Reaches.down chosen further).name_ne
    | down chosen' further' =>
      obtain rfl := place_unique further.name_extends further'.name_extends
      obtain rfl := Option.some.inj (chosen.symm.trans chosen')
      rw [ih further']

theorem result?_eq_none_of_step {move : Move} {shown : List Event}
    (made : step knows name move d = some (next, shown)) : d.result? = none := by
  cases d with
  | ended r => cases move <;> cases made
  | _ => rfl

theorem reaches_of_stepAt {move : Move} {shown : List Event}
    (made : stepAt knows move address branch c = some (next, shown)) :
    ∃ name d after, Reaches branch c address name d ∧
      step knows name move d = some (after, shown) ∧ Reaches branch next address name after := by
  induction address generalizing branch c next with
  | nil => exact ⟨branch, c, next, .here branch c, made, .here branch next⟩
  | cons i rest ih =>
    cases c with
    | forked stop branches =>
      obtain ⟨child, moved, hchild, hmoved, rfl⟩ := stepAt_cons_iff.1 made
      obtain ⟨name, d, after, hbefore, hstep, hafter⟩ := ih hmoved
      refine ⟨name, d, after, .down hchild hbefore, hstep, .down ?_ hafter⟩
      exact List.getElem?_set_self (List.getElem?_eq_some_iff.1 hchild).1
    | _ => cases made

/-- What does not stand below a chain that moves has been there before, and had not ended if it has
not now. -/
theorem Reaches.before_stepAt (h : Reaches branch next address name d) {at_ : List Nat}
    {move : Move} {shown : List Event} (hat : ¬at_ <+: address)
    (made : Chain.stepAt knows move at_ branch c = some (next, shown)) :
    ∃ d', Reaches branch c address name d' ∧ (d.result? = none → d'.result? = none) := by
  induction at_ generalizing branch c next address with
  | nil => exact absurd List.nil_prefix hat
  | cons j rest ih =>
    cases c with
    | forked stop branches =>
      obtain ⟨child, moved, hchild, hmoved, rfl⟩ := stepAt_cons_iff.1 made
      cases h with
      | here => exact ⟨_, .here _ _, fun _ => rfl⟩
      | @down _ _ _ _ i other _ further chosen below =>
        by_cases hij : j = i
        · subst hij
          rw [List.getElem?_set_self (List.getElem?_eq_some_iff.1 hchild).1] at chosen
          obtain rfl := Option.some.inj chosen
          have hfurther : ¬rest <+: further := fun hp => hat (List.cons_prefix_cons.2 ⟨rfl, hp⟩)
          obtain ⟨d', hreaches, hended⟩ := ih below hfurther hmoved
          exact ⟨d', .down hchild hreaches, hended⟩
        · rw [List.getElem?_set_ne hij] at chosen
          exact ⟨d, .down chosen below, id⟩
    | _ => cases made

/-- A chain moves only after all chains below it have ended. -/
theorem Reaches.ended_below {at_ below : List Nat} {i : Nat}
    (h : Reaches branch c (at_ ++ i :: below) name d) {move : Move} {shown : List Event}
    (made : Chain.stepAt knows move at_ branch c = some (next, shown)) : d.result? ≠ none := by
  induction at_ generalizing branch c next with
  | nil =>
    rw [List.nil_append] at h
    cases h with
    | down chosen further =>
      obtain ⟨-, results, rfl, -, -⟩ := join_of_step made
      obtain ⟨r, -, rfl⟩ := List.mem_map.1 (List.mem_of_getElem? chosen)
      intro hd
      cases further.result?_eq_none hd
  | cons j rest ih =>
    rw [List.cons_append] at h
    cases h with
    | down chosen further =>
      obtain ⟨child, moved, hchild, hmoved, -⟩ := stepAt_cons_iff.1 made
      obtain rfl := Option.some.inj (chosen.symm.trans hchild)
      exact ih further hmoved

/-- What has not ended and is not the chain that moves is still there afterwards. -/
theorem Reaches.after_stepAt (h : Reaches branch c address name d) (hd : d.result? = none)
    {at_ : List Nat} (hne : address ≠ at_) {move : Move} {shown : List Event}
    (made : Chain.stepAt knows move at_ branch c = some (next, shown)) :
    ¬at_ <+: address ∧ ∃ d', Reaches branch next address name d' ∧ d'.result? = none := by
  have hbelow : ¬at_ <+: address := by
    rintro ⟨below, rfl⟩
    cases below with
    | nil => exact hne (List.append_nil at_)
    | cons i below => exact h.ended_below made hd
  refine ⟨hbelow, ?_⟩
  by_cases habove : address <+: at_
  · obtain ⟨rest, rfl⟩ := habove
    cases rest with
    | nil => exact absurd (List.append_nil address).symm hne
    | cons i rest =>
      obtain ⟨after, hafter, hreaches⟩ := h.stepAt made
      -- A chain below which one can move is a fork, and stays one.
      cases d with
      | forked stop branches =>
        obtain ⟨_, _, -, -, rfl⟩ := stepAt_cons_iff.1 hafter
        exact ⟨_, hreaches, rfl⟩
      | _ => cases hafter
  · exact ⟨d, (h.stepAt_elsewhere hd habove made).1, hd⟩

end ReminderFlow.Chain
