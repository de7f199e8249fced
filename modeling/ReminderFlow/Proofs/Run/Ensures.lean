import Mathlib.Algebra.BigOperators.Group.Multiset.Basic
import Mathlib.Algebra.GroupWithZero.Nat
import Mathlib.Algebra.Order.BigOperators.Group.List
import Mathlib.Algebra.Order.Group.Nat
import ReminderFlow.Proofs.Run.Fork

namespace ReminderFlow.Chain

/-- Calls of executors and their inputs; branches may make theirs in any order. -/
abbrev Calls := Multiset (String × Value)

def Event.call? : Event → Option (String × Value)
  | called _ executor input => some (executor, input)
  | _ => none

/-- The executors that were called, each with what it was handed, in order. -/
def calls (events : List Event) : Calls := events.filterMap Event.call?

theorem calls_append (before after : List Event) :
    calls (before ++ after) = calls before + calls after := by
  rw [calls, List.filterMap_append, ← Multiset.coe_add]
  rfl

theorem calls_refusal (branch executor : String) (reply : Except Fault Datum) :
    calls (refusal branch executor reply) = 0 := by
  obtain h | ⟨text, h⟩ := refusal_cases branch executor reply <;> rw [h] <;> rfl

theorem calls_ending (branch : String) (c : Chain) : calls (ending branch c) = 0 := by
  unfold ending leaving
  split_ifs <;> rfl

/-- What is to hold of the calls that are made and of the result. -/
abbrev Post := Calls → Except Failure Document → Prop

/-- What is still to hold when these calls have been made. -/
def Post.after (Q : Post) (made : Calls) : Post := fun further r => Q (made + further) r

theorem Post.after_zero (Q : Post) : Q.after 0 = Q := by
  funext further r
  rw [after, zero_add]

theorem Post.after_after (Q : Post) (made more : Calls) :
    (Q.after made).after more = Q.after (made + more) := by
  funext further r
  rw [after, after, after, add_assoc]

structure Out where
  calls : Calls
  result : Except Failure Document

/-- What is to be ensured of a branch: the moves it may take, and what is to hold then. -/
structure Aim where
  moves : Nat
  post : Post

/-- Every branch has come to what was to be ensured of it. -/
structure Meet (aims : List Aim) (outs : List Out) : Prop where
  length : outs.length = aims.length
  each : ∀ (i : Nat) (aim : Aim) (out : Out), aims[i]? = some aim → outs[i]? = some out →
    aim.post out.calls out.result

/-- However it is replied and in whatever order branches move, the chain ends after no more than so
many moves, and then the property holds. -/
inductive Ensures (knows : String → Bool) (replies : Replies) : Nat → Post → Chain → Prop
  | ended {n : Nat} {Q : Post} {r : Except Failure Document} (holds : Q 0 r) :
      Ensures knows replies n Q (ended r)
  | created {n : Nat} {Q : Post} {m : Machine} {doc : Document}
      (begun : Ensures knows replies n Q (ready m m.start doc)) :
      Ensures knows replies (n + 1) Q (created m doc)
  | ready {n : Nat} {Q : Post} {m : Machine} {name : String} {doc : Document} {s : State}
      (state : m.state? name = some s)
      (entered : Ensures knows replies n Q (enterState knows m name doc s)) :
      Ensures knows replies (n + 1) Q (ready m name doc)
  | waiting {n : Nat} {Q : Post} {stop : Stop} {seconds : Number}
      (awake : Ensures knows replies n Q (follow stop.machine stop.next stop.document)) :
      Ensures knows replies (n + 1) Q (waiting stop seconds)
  | queued {n : Nat} {Q : Post} {stop : Stop} {call : Call}
      (called : Ensures knows replies n (Q.after {(call.executor, call.input)})
        (working stop call true)) :
      Ensures knows replies (n + 1) Q (working stop call false)
  | called {n : Nat} {Q : Post} {stop : Stop} {call : Call}
      (replied : ∃ reply, replies call.executor call.input reply)
      (taken : ∀ reply, replies call.executor call.input reply →
        Ensures knows replies n Q (take stop call reply)) :
      Ensures knows replies (n + 1) Q (working stop call true)
  | forked {n : Nat} {Q : Post} {stop : Stop} {branches : List Chain} (aims : List Aim)
      (length : aims.length = branches.length)
      (each : ∀ (i : Nat) (c : Chain) (aim : Aim), branches[i]? = some c → aims[i]? = some aim →
        Ensures knows replies aim.moves aim.post c)
      (joined : ∀ outs : List Out, Meet aims outs → ∀ next, Joins stop (outs.map Out.result) next →
        Ensures knows replies n (Q.after (outs.map Out.calls).sum) next) :
      Ensures knows replies (n + 1 + (aims.map Aim.moves).sum) Q (forked stop branches)

variable {knows : String → Bool} {replies : Replies}

theorem Ensures.mono {n k : Nat} {Q : Post} {c : Chain} (h : Ensures knows replies n Q c)
    (hk : n ≤ k) : Ensures knows replies k Q c := by
  induction h generalizing k with
  | ended holds => exact .ended holds
  | @created n _ _ _ begun ih =>
    obtain ⟨l, rfl⟩ := Nat.exists_eq_add_of_le' hk
    exact .created (ih (Nat.le_add_left n l))
  | @ready n _ _ _ _ _ state entered ih =>
    obtain ⟨l, rfl⟩ := Nat.exists_eq_add_of_le' hk
    exact .ready state (ih (Nat.le_add_left n l))
  | @waiting n _ _ _ awake ih =>
    obtain ⟨l, rfl⟩ := Nat.exists_eq_add_of_le' hk
    exact .waiting (ih (Nat.le_add_left n l))
  | @queued n _ _ _ called ih =>
    obtain ⟨l, rfl⟩ := Nat.exists_eq_add_of_le' hk
    exact .queued (ih (Nat.le_add_left n l))
  | @called n _ _ _ replied taken ih =>
    obtain ⟨l, rfl⟩ := Nat.exists_eq_add_of_le' hk
    exact .called replied fun reply hreply => ih reply hreply (Nat.le_add_left n l)
  | @forked n _ _ _ aims length each joined _ ih =>
    obtain ⟨l, rfl⟩ := Nat.exists_eq_add_of_le' hk
    rw [← Nat.add_assoc, ← Nat.add_assoc]
    exact .forked aims length each fun outs hmeet next hjoins =>
      ih outs hmeet next hjoins (Nat.le_add_left n l)

theorem Ensures.holds {n : Nat} {Q : Post} {r : Except Failure Document}
    (h : Ensures knows replies n Q (.ended r)) : Q 0 r := by
  cases h with
  | ended holds => exact holds

theorem sum_set {α : Type} [AddCommMonoid α] {l : List α} {i : Nat} {a : α} (h : l[i]? = some a)
    (b : α) : (l.set i b).sum + a = l.sum + b := by
  induction l generalizing i with
  | nil => cases h
  | cons x rest ih =>
    cases i with
    | zero =>
      obtain rfl := Option.some.inj h
      rw [List.set_cons_zero, List.sum_cons, List.sum_cons, add_right_comm, add_comm b, add_right_comm]
    | succ i => rw [List.set_cons_succ, List.sum_cons, List.sum_cons, add_assoc, ih h, add_assoc]

theorem Ensures.step {n : Nat} {Q : Post} {branch : String} {move : Move} {c next : Chain}
    {events : List Event} (h : Ensures knows replies n Q c) (honest : Honest replies [] c move)
    (made : Chain.step knows branch move c = some (next, events)) :
    ∃ k < n, Ensures knows replies k (Q.after (calls events)) next := by
  obtain ⟨seen, hmove, hshown⟩ := move?_of_step made
  have hcalls : calls events = calls seen := by
    rw [hshown, calls_append, calls_ending, add_zero]
  rw [hcalls]
  have hnone : calls [] = 0 := rfl
  cases h with
  | ended holds => cases move <;> cases hmove
  | @created n _ _ _ begun =>
    cases move <;> cases hmove
    exact ⟨n, n.lt_succ_self, by rwa [hnone, Post.after_zero]⟩
  | @ready n _ m name doc s state entered =>
    cases move with
    | enter =>
      simp only [move?, state] at hmove
      cases hmove
      have hentered : calls [.entered branch name s.type] = 0 := rfl
      exact ⟨n, n.lt_succ_self, by rwa [hentered, Post.after_zero]⟩
    | _ => cases hmove
  | @waiting n _ _ _ awake =>
    cases move <;> cases hmove
    exact ⟨n, n.lt_succ_self, by rwa [hnone, Post.after_zero]⟩
  | @queued n _ _ call called =>
    cases move <;> cases hmove
    exact ⟨n, n.lt_succ_self, called⟩
  | @called n _ stop call replied taken =>
    cases move with
    | reply r =>
      cases hmove
      refine ⟨n, n.lt_succ_self, ?_⟩
      rw [calls_refusal, Post.after_zero]
      exact taken r (honest stop call true rfl)
    | _ => cases hmove
  | @forked n _ stop branches aims length each joined =>
    obtain ⟨-, results, rfl, hjoins, hending⟩ := join_of_step made
    have hseen : calls seen = 0 := by rw [← hcalls, hending, calls_ending]
    rw [hseen]
    have hmeet : Meet aims (results.map (Out.mk 0)) := by
      refine ⟨by rw [List.length_map, length, List.length_map], fun i aim out haim hout => ?_⟩
      rw [List.getElem?_map] at hout
      obtain ⟨r, hr, rfl⟩ := Option.map_eq_some_iff.1 hout
      have hended : (results.map Chain.ended)[i]? = some (.ended r) := by
        rw [List.getElem?_map, hr]
        rfl
      exact (each i _ aim hended haim).holds
    have hresults : (results.map (Out.mk 0)).map Out.result = results := by
      rw [List.map_map]
      exact List.map_id _
    have hsum : ((results.map (Out.mk 0)).map Out.calls).sum = 0 := by
      rw [List.map_map]
      exact List.sum_eq_zero (by simp)
    have hnext := joined _ hmeet next (by rwa [hresults])
    rw [hsum] at hnext
    exact ⟨n, by omega, hnext⟩

/-- What a branch has come to, together with the calls that it had made before. -/
theorem Meet.extend {aims : List Aim} {outs : List Out} {i k : Nat} {made : Calls} {aim : Aim}
    {out : Out} (h : Meet (aims.set i ⟨k, aim.post.after made⟩) outs) (haim : aims[i]? = some aim)
    (hout : outs[i]? = some out) :
    let whole := outs.set i ⟨made + out.calls, out.result⟩
    Meet aims whole ∧ whole.map Out.result = outs.map Out.result ∧
      (whole.map Out.calls).sum = made + (outs.map Out.calls).sum := by
  intro whole
  have hi : i < outs.length := (List.getElem?_eq_some_iff.1 hout).1
  have hi' : i < aims.length := (List.getElem?_eq_some_iff.1 haim).1
  refine ⟨⟨?_, fun j other o hother ho => ?_⟩, ?_, ?_⟩
  · rw [List.length_set, h.length, List.length_set]
  · by_cases hij : i = j
    · subst hij
      rw [List.getElem?_set_self hi] at ho
      obtain rfl := Option.some.inj (haim.symm.trans hother)
      cases ho
      exact h.each i _ out (List.getElem?_set_self hi') hout
    · rw [List.getElem?_set_ne hij] at ho
      exact h.each j other o (by rwa [List.getElem?_set_ne hij]) ho
  · rw [List.map_set]
    have hresult : (outs.map Out.result)[i]? = some out.result := by rw [List.getElem?_map, hout]; rfl
    obtain ⟨hlt, heq⟩ := List.getElem?_eq_some_iff.1 hresult
    rw [← heq, List.set_getElem_self]
  · have hcalls : (outs.map Out.calls)[i]? = some out.calls := by rw [List.getElem?_map, hout]; rfl
    have hsum := sum_set hcalls (made + out.calls)
    rw [← add_assoc] at hsum
    rw [List.map_set, add_right_cancel hsum, add_comm]

/-- A move anywhere in the tree takes away one of the moves that are left, and what it calls counts
among the calls. -/
theorem Ensures.stepAt {n : Nat} {Q : Post} {address : List Nat} {branch : String} {move : Move}
    {c next : Chain} {events : List Event} (h : Ensures knows replies n Q c)
    (honest : Honest replies address c move)
    (made : Chain.stepAt knows move address branch c = some (next, events)) :
    ∃ k < n, Ensures knows replies k (Q.after (calls events)) next := by
  induction address generalizing n Q branch c next with
  | nil => exact h.step honest made
  | cons i rest ih =>
    cases h with
    | @forked n _ stop branches aims length each joined =>
      obtain ⟨child, after, hchild, hafter, rfl⟩ := stepAt_cons_iff.1 made
      have hi : i < branches.length := (List.getElem?_eq_some_iff.1 hchild).1
      obtain ⟨aim, haim⟩ : ∃ aim, aims[i]? = some aim :=
        ⟨aims[i], List.getElem?_eq_getElem (length ▸ hi)⟩
      obtain ⟨k, hk, hmoved⟩ := ih (each i child aim hchild haim) (Honest.child honest hchild) hafter
      -- The aim of the branch that has moved is what is left of it.
      have hmoves : ((aims.set i ⟨k, aim.post.after (calls events)⟩).map Aim.moves).sum <
          (aims.map Aim.moves).sum := by
        have hsum := sum_set (show (aims.map Aim.moves)[i]? = some aim.moves by
          rw [List.getElem?_map, haim]; rfl) k
        have hset : ((aims.map Aim.moves).set i k).sum < (aims.map Aim.moves).sum := by omega
        rwa [List.map_set]
      refine ⟨_, Nat.add_lt_add_left hmoves (n + 1), .forked _ ?_ ?_ ?_⟩
      · rw [List.length_set, List.length_set, length]
      · intro j d other hd hother
        by_cases hij : i = j
        · subst hij
          rw [List.getElem?_set_self hi] at hd
          rw [List.getElem?_set_self (length ▸ hi)] at hother
          cases hd
          cases hother
          exact hmoved
        · rw [List.getElem?_set_ne hij] at hd hother
          exact each j d other hd hother
      · intro outs hmeet next hjoins
        have hlength : i < outs.length := by
          rw [hmeet.length, List.length_set, length]
          exact hi
        obtain ⟨out, hout⟩ : ∃ out, outs[i]? = some out := ⟨_, List.getElem?_eq_getElem hlength⟩
        obtain ⟨hwhole, hresults, hsum⟩ := hmeet.extend haim hout
        have hnext := joined _ hwhole next (by rwa [hresults])
        rwa [hsum, ← Post.after_after] at hnext
    | _ => simp [Chain.stepAt] at made

/-- All along a course, what was to be ensured of the chain is ensured of what it has become. -/
theorem Ensures.course {n : Nat} {Q : Post} {branch : String} {c last : Chain}
    {events : List Event} (h : Ensures knows replies n Q c)
    (course : Course knows replies branch c events last) :
    ∃ k ≤ n, Ensures knows replies k (Q.after (calls events)) last := by
  induction course generalizing n Q with
  | rest =>
    have hnone : calls [] = 0 := rfl
    exact ⟨n, le_refl n, by rwa [hnone, Post.after_zero]⟩
  | step honest made further ih =>
    obtain ⟨k, hk, hnext⟩ := h.stepAt honest made
    obtain ⟨l, hl, hlast⟩ := ih hnext
    rw [Post.after_after, ← calls_append] at hlast
    exact ⟨l, hl.trans hk.le, hlast⟩

/-- What is ensured of a chain ensures something of every chain below it, within as many moves. -/
theorem Ensures.at? {n : Nat} {Q : Post} {address : List Nat} {c d : Chain}
    (h : Ensures knows replies n Q c) (hat : c.at? address = some d) :
    ∃ k ≤ n, ∃ R, Ensures knows replies k R d := by
  induction address generalizing n Q c with
  | nil =>
    cases hat
    exact ⟨n, le_rfl, Q, h⟩
  | cons i rest ih =>
    cases h with
    | @forked n _ stop branches aims length each joined =>
      obtain ⟨child, hchild, hat⟩ := Option.bind_eq_some_iff.1 hat
      have hi : i < aims.length := length ▸ (List.getElem?_eq_some_iff.1 hchild).1
      obtain ⟨k, hk, R, hd⟩ := ih (each i child aims[i] hchild (List.getElem?_eq_getElem hi)) hat
      have hmem := List.mem_map_of_mem (f := Aim.moves) (List.getElem_mem hi)
      have hsum := List.le_sum_of_mem hmem
      exact ⟨k, by omega, R, hd⟩
    | _ => cases hat

theorem reaches_of_at? {c d : Chain} {address : List Nat} (hat : c.at? address = some d)
    (branch : String) : ∃ name, Reaches branch c address name d := by
  induction address generalizing c branch with
  | nil =>
    cases hat
    exact ⟨branch, .here branch d⟩
  | cons i rest ih =>
    cases c with
    | forked stop branches =>
      obtain ⟨child, hchild, hat⟩ := Option.bind_eq_some_iff.1 hat
      obtain ⟨name, hreaches⟩ := ih hat (branchName branch stop.state i)
      exact ⟨name, .down hchild hreaches⟩
    | _ => cases hat

/-- A chain that is sure to end, and has not, may go on: by itself, or by a reply to a call. -/
theorem Ensures.goes_on {n : Nat} {Q : Post} {c : Chain} (h : Ensures knows replies n Q c)
    (hc : c.result? = none) (branch : String) :
    ∃ address move next events, Honest replies address c move ∧
      Chain.stepAt knows move address branch c = some (next, events) := by
  obtain ⟨address, move, next, events, hmove, made⟩ | ⟨address, stop, call, hat⟩ :=
    Chain.goes_on knows branch c hc
  · refine ⟨address, move, next, events, ?_, made⟩
    cases move with
    | reply r => exact absurd rfl (hmove r)
    | _ => trivial
  · obtain ⟨k, -, R, hcalled⟩ := h.at? hat
    cases hcalled with
    | called replied taken =>
      obtain ⟨reply, hreply⟩ := replied
      obtain ⟨name, hreaches⟩ := reaches_of_at? hat branch
      have hstep : ∃ after events, Chain.stepAt knows (.reply reply) [] name
          (working stop call true) = some (after, events) := ⟨_, _, rfl⟩
      obtain ⟨after, events, hstep⟩ := hstep
      obtain ⟨next, made⟩ := hreaches.exists_stepAt hstep
      rw [List.append_nil] at made
      refine ⟨address, .reply reply, next, events, fun stop' call' started' hat' => ?_, made⟩
      cases hat.symm.trans hat'
      exact hreply

end ReminderFlow.Chain
