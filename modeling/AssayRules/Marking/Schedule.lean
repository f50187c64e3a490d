/-!
# Sharing work among workers

A list of independent tasks is worked off by several workers at once. Of `w` workers
the `j`-th takes the tasks in places `j`, `j + w`, `j + 2 * w` and so on, and writes
each result into the slot of its task. Every slot belongs to one worker, so it does not
matter in which order the workers get to write.

There are never more workers than tasks, and where only one is left the tasks are done
in order.
-/

namespace AssayRules

namespace Schedule

variable {α β : Type}

/-- **The share of a worker**: its tasks, with their places. -/
def share (tasks : List α) (workers worker : Nat) : List (α × Nat) :=
  tasks.zipIdx.filter fun task => task.2 % workers == worker

/-- **A write**: the result of a task, and the slot it goes into. -/
structure Write (β : Type) where
  slot : Nat
  result : β
deriving DecidableEq, Repr

/-- The writes of a worker, in the order of its share. -/
def writes (task : α → β) (tasks : List α) (workers worker : Nat) : List (Write β) :=
  (share tasks workers worker).map fun (input, slot) => ⟨slot, task input⟩

/-- The slots after some writes, the last write to a slot counting. -/
def fill (slots : List β) (written : List (Write β)) : List β :=
  written.foldl (fun filled write => filled.set write.slot write.result) slots

/-- How many workers there is work for. -/
def workerCount (tasks : List α) (workers : Nat) : Nat := min workers tasks.length

/-- **The results of all tasks**, in the order of the tasks. `blank` stands in a slot
until it is written. -/
def run (workers : Nat) (blank : β) (task : α → β) (tasks : List α) : List β :=
  let count := workerCount tasks workers
  if count ≤ 1 then tasks.map task
  else
    let started := (List.range count).map fun worker =>
      Task.spawn fun _ => writes task tasks count worker
    fill (List.replicate tasks.length blank) (started.flatMap Task.get)

end Schedule

end AssayRules
