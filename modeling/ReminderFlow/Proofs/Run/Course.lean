import ReminderFlow.Run.Chain

namespace ReminderFlow

/-- A reply that an executor may give to an input, after any number of calls. -/
def Registry.MayReply (r : Registry) (id : String) (input : Value)
    (reply : Except Fault Datum) : Prop :=
  ∃ e n, r.get? id = some e ∧ (e.call n input).result = reply

namespace Chain

/-- What may be replied to the calls of executors. -/
abbrev Replies := String → Value → Except Fault Datum → Prop

/-- A move at an address that brings along no other reply than one that may be given. -/
def Honest (replies : Replies) (address : List Nat) (c : Chain) : Move → Prop
  | .reply r => ∀ stop call started,
      c.at? address = some (working stop call started) → replies call.executor call.input r
  | _ => True

/-- The chain has become the last one, and the events were to be seen on the way. -/
inductive Course (knows : String → Bool) (replies : Replies) (branch : String) :
    Chain → List Event → Chain → Prop where
  | rest (c : Chain) : Course knows replies branch c [] c
  | step {address : List Nat} {move : Move} {c next last : Chain} {events more : List Event}
      (honest : Honest replies address c move)
      (made : stepAt knows move address branch c = some (next, events))
      (further : Course knows replies branch next more last) :
      Course knows replies branch c (events ++ more) last

namespace Course

variable {knows : String → Bool} {replies : Replies} {branch : String}

theorem append {c d last : Chain} {before after : List Event}
    (h : Course knows replies branch c before d) (h' : Course knows replies branch d after last) :
    Course knows replies branch c (before ++ after) last := by
  induction h with
  | rest c => exact h'
  | step honest made _ ih =>
    rw [List.append_assoc]
    exact .step honest made (ih h')

theorem concat {c d last : Chain} {before events : List Event} {address : List Nat} {move : Move}
    (h : Course knows replies branch c before d) (honest : Honest replies address d move)
    (made : stepAt knows move address branch d = some (last, events)) :
    Course knows replies branch c (before ++ events) last := by
  have hlast := Course.step honest made (.rest last)
  rw [List.append_nil] at hlast
  exact h.append hlast

end Course

end Chain

end ReminderFlow
