import ReminderFlow.Executor.Basic

namespace ReminderFlow

structure Registry where
  executors : List (String × Executor)

inductive RegistryError where
  /-- What is registered under the id is no executor. -/
  | notExecutor (id : String)

def RegistryError.message : RegistryError → String
  | notExecutor id => s!"Executor {Text.quote id} does not implement TaskExecutor"

namespace Registry

/-- The registry of these entries; the first that is no executor is refused. -/
def ofList : List (String × Option Executor) → Except RegistryError Registry
  | [] => .ok ⟨[]⟩
  | (id, none) :: _ => .error (.notExecutor id)
  | (id, some e) :: rest => (ofList rest).map fun r => ⟨(id, e) :: r.executors⟩

def get? (r : Registry) (id : String) : Option Executor := r.executors.lookup id

def contains (r : Registry) (id : String) : Bool := (r.get? id).isSome

def listed (r : Registry) : List String := Members.keys r.executors

/-- The ids in order. -/
def ids (r : Registry) : List String := r.listed.mergeSort fun a b => a ≤ b

def size (r : Registry) : Nat := r.executors.length

/-- The ids that a machine needs and the registry lacks, in order. -/
def missing (r : Registry) (needed : List String) : List String :=
  (needed.filter fun id => !r.contains id).mergeSort fun a b => a ≤ b

theorem missing_eq_nil_iff (r : Registry) (needed : List String) :
    r.missing needed = [] ↔ ∀ id ∈ needed, r.contains id = true := by
  have h : r.missing needed = [] ↔ (needed.filter fun id => !r.contains id) = [] := by
    rw [missing, ← List.length_eq_zero_iff, List.length_mergeSort, List.length_eq_zero_iff]
  rw [h, List.filter_eq_nil_iff]
  simp

end Registry

end ReminderFlow
