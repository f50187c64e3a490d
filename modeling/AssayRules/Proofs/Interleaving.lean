import AssayRules.Proofs.Marking
import AssayRules.Proofs.Schedule
import Mathlib.Data.List.Sort

/-!
# Workers that write in any order

`Schedule.run` lets the writes of one worker follow those of another. Workers that are left to
themselves do not: each goes through its share in order, and which of them gets to write next
is open. A `Schedule.Pool` is what they have come to at one moment, and a `Schedule.Pool.Run`
is any sequence of steps they may take from there.

One step moves one write from what is pending to what is done (`Pool.Step.perm`), so that a
whole run moves some of the writes, in some order, and neither loses nor repeats one
(`Pool.Run.perm`). At the start the writes of all tasks are pending, one each, as the shares
divide the places among the workers (`Pool.filter_slot_pending_start`). What the slots hold in
the end is then told by `getElem?_fill`, which does not ask for the order.

For a table this says that its marks depend neither on the number of workers nor on how these
get on (`mark_of_pool_run`).
-/

namespace AssayRules

namespace Schedule

variable {α β : Type}

/-! ### The shares -/

/-- **A stride**: from a first place on in steps of one length, as far as a bound. -/
def stride (first step bound : Nat) : List Nat :=
  ((List.range bound).map fun k => first + k * step).filter (· < bound)

theorem mem_stride {first step bound i : Nat} (hfirst : first < step) :
    i ∈ stride first step bound ↔ i % step = first ∧ i < bound := by
  simp only [stride, List.mem_filter, List.mem_map, List.mem_range, decide_eq_true_eq]
  refine and_congr_left fun hlt => ⟨?_, ?_⟩
  · rintro ⟨k, -, rfl⟩
    rw [Nat.add_mul_mod_self_right, Nat.mod_eq_of_lt hfirst]
  · -- the quotient counts the steps
    rintro rfl
    have hdiv : i / step ≤ i := Nat.div_le_self i step
    exact ⟨i / step, by omega, by rw [Nat.mul_comm, Nat.mod_add_div]⟩

theorem pairwise_stride (first bound : Nat) {step : Nat} (hstep : 0 < step) :
    (stride first step bound).Pairwise (· < ·) := by
  refine List.Pairwise.filter _ (List.pairwise_map.2 ?_)
  exact List.pairwise_lt_range.imp fun h =>
    Nat.add_lt_add_left (Nat.mul_lt_mul_of_pos_right h hstep) first

theorem pairwise_slots_writes (task : α → β) (tasks : List α) (workers worker : Nat) :
    ((writes task tasks workers worker).map Write.slot).Pairwise (· < ·) := by
  have hslots : (writes task tasks workers worker).map Write.slot
      = (share tasks workers worker).map Prod.snd := by
    rw [writes, List.map_map]
    rfl
  have hplaces : (tasks.zipIdx.map Prod.snd).Pairwise (· < ·) := by
    rw [List.zipIdx_map_snd]
    exact List.pairwise_lt_range'
  -- a share is cut out of the tasks with their places, and these ascend
  rw [hslots]
  exact hplaces.sublist (List.filter_sublist.map Prod.snd)

/-- **A worker goes through the places in a stride**, beginning with its own number. -/
theorem slots_writes (task : α → β) (tasks : List α) {workers worker : Nat}
    (hworker : worker < workers) :
    (writes task tasks workers worker).map Write.slot = stride worker workers tasks.length := by
  -- both ascend, so that it is enough to have the same places in both
  refine (pairwise_slots_writes task tasks workers worker).eq_of_mem_iff
    (pairwise_stride worker tasks.length (Nat.zero_lt_of_lt hworker)) fun i => ?_
  -- a place of this worker, and one that there is a column for
  rw [mem_stride hworker, List.mem_map]
  constructor
  · rintro ⟨write, hmem, rfl⟩
    obtain ⟨hmod, hfaithful⟩ := mem_writes.1 hmem
    exact ⟨hmod, by simpa using (List.getElem?_eq_some_iff.1 hfaithful).1⟩
  · rintro ⟨rfl, hi⟩
    exact ⟨⟨i, task tasks[i]⟩, mem_writes.2 ⟨rfl, by simp [Write.Faithful, hi]⟩, rfl⟩

/-! ### Steps and runs -/

/-- **A pool of workers** at one moment: what each of them has still to write, and the slots. -/
structure Pool (β : Type) where
  pending : List (List (Write β))
  slots : List β

namespace Pool

variable {p q r : Pool β} {write : Write β} {written : List (Write β)}

/-- The pool before anything is written. -/
def start (workers : Nat) (blank : β) (task : α → β) (tasks : List α) : Pool β where
  pending := (List.range workers).map (writes task tasks workers)
  slots := List.replicate tasks.length blank

/-- **One step**: some worker does the write that is next for it. -/
inductive Step : Pool β → Write β → Pool β → Prop
  | work (before after : List (List (Write β))) (rest : List (Write β)) (write : Write β)
      (slots : List β) :
      Step ⟨before ++ (write :: rest) :: after, slots⟩ write
        ⟨before ++ rest :: after, slots.set write.slot write.result⟩

/-- **A run**: one step after the other, with what is written in them. -/
inductive Run : Pool β → List (Write β) → Pool β → Prop
  | nil (p : Pool β) : Run p [] p
  | cons {p q r : Pool β} {write : Write β} {written : List (Write β)} (step : Step p write q)
      (rest : Run q written r) : Run p (write :: written) r

/-- A pool is finished when no worker has anything left to write. -/
def Finished (p : Pool β) : Prop := ∀ left ∈ p.pending, left = []

theorem finished_iff : p.Finished ↔ p.pending.flatten = [] := List.flatten_eq_nil_iff.symm

/-- **A step moves one write** from what is pending to what is done. -/
theorem Step.perm (h : Step p write q) :
    p.pending.flatten.Perm (write :: q.pending.flatten) := by
  cases h with
  | work before after rest write slots =>
    -- what is taken from the middle is brought to the front
    simp [List.perm_middle]

theorem Step.slots_eq (h : Step p write q) : q.slots = p.slots.set write.slot write.result := by
  cases h
  rfl

/-- **A pool that is not finished has a step.** -/
theorem exists_step (h : ¬ p.Finished) : ∃ write q, Step p write q := by
  obtain ⟨pending, slots⟩ := p
  obtain ⟨left, hmem, hleft⟩ : ∃ left ∈ pending, left ≠ [] := by
    simpa [Finished] using h
  obtain ⟨before, after, rfl⟩ := List.append_of_mem hmem
  obtain ⟨write, rest, rfl⟩ := List.exists_cons_of_ne_nil hleft
  exact ⟨write, _, .work before after rest write slots⟩

/-- **A run moves the writes it consists of**: those that were pending are the ones done and
the ones that still are. -/
theorem Run.perm (h : Run p written q) :
    p.pending.flatten.Perm (written ++ q.pending.flatten) := by
  induction h with
  | nil p => exact .refl _
  | cons step rest ih => exact step.perm.trans (ih.cons _)

theorem Run.slots_eq (h : Run p written q) : q.slots = fill p.slots written := by
  induction h with
  | nil p => rfl
  | cons step rest ih => rw [ih, step.slots_eq]; rfl

/-- **No run gets stuck**: from any pool the workers can go on until they are finished. -/
theorem exists_run_finished (p : Pool β) : ∃ written q, Run p written q ∧ q.Finished := by
  -- the number of writes that are pending goes down
  generalize hn : p.pending.flatten.length = n
  induction n generalizing p with
  | zero => exact ⟨[], p, .nil p, finished_iff.2 (List.length_eq_zero_iff.1 hn)⟩
  | succ n ih =>
    have hunfinished : ¬ p.Finished := fun h => by
      rw [finished_iff.1 h] at hn
      cases hn
    -- as long as a write is pending, some worker can go on with it
    obtain ⟨write, q, step⟩ := exists_step hunfinished
    have hlength := step.perm.length_eq
    rw [hn, List.length_cons] at hlength
    obtain ⟨written, last, run, hfinished⟩ := ih q (Nat.succ.inj hlength).symm
    exact ⟨write :: written, last, .cons step run, hfinished⟩

/-! ### What is pending at the start -/

variable {task : α → β} {tasks : List α} {workers : Nat} {blank : β}

theorem pending_start_flatten (workers : Nat) (blank : β) (task : α → β) (tasks : List α) :
    (start workers blank task tasks).pending.flatten
      = (List.range workers).flatMap (writes task tasks workers) :=
  List.flatMap_def.symm

/-- No write is pending twice, as no place is in the strides of two workers. -/
theorem nodup_pending_start (workers : Nat) (blank : β) (task : α → β) (tasks : List α) :
    (start workers blank task tasks).pending.flatten.Nodup := by
  rw [pending_start_flatten, List.nodup_flatMap]
  refine ⟨fun worker _ => (pairwise_slots_writes task tasks workers worker).nodup.of_map _, ?_⟩
  -- the places of two shares differ in their remainders
  refine List.pairwise_lt_range.imp fun hlt write hmem hmem' => ?_
  exact Nat.ne_of_lt hlt ((mem_writes.1 hmem).1.symm.trans (mem_writes.1 hmem').1)

/-- **At the start each slot has one write to come**: the result of its task. -/
theorem filter_slot_pending_start (hworkers : 0 < workers) {i : Nat} (hi : i < tasks.length) :
    (start workers blank task tasks).pending.flatten.filter (fun write => write.slot == i)
      = [⟨i, task tasks[i]⟩] := by
  -- nothing is pending twice, so that only what is pending has to be compared
  refine List.perm_singleton.1 ((List.perm_ext_iff_of_nodup
    ((nodup_pending_start workers blank task tasks).filter _) (List.nodup_singleton _)).2 ?_)
  rintro ⟨slot, result⟩
  rw [List.mem_filter, pending_start_flatten, mem_flatMap_writes hworkers, List.mem_singleton,
    beq_iff_eq]
  -- what is pending for the slot is the result of its task, and no other
  constructor
  · rintro ⟨hfaithful, rfl⟩
    have hresult : some (task tasks[slot]) = some result := by
      rwa [Write.Faithful, List.getElem?_map, List.getElem?_eq_getElem hi] at hfaithful
    rw [Option.some.inj hresult]
  · rintro ⟨⟩
    exact ⟨by simp [Write.Faithful, hi], rfl⟩

/-- **Each slot is written once**, with the result of its task: it has been or is still to be,
whatever the order. -/
theorem Run.filter_slot (h : Run (start workers blank task tasks) written q)
    (hworkers : 0 < workers) {i : Nat} (hi : i < tasks.length) :
    (written ++ q.pending.flatten).filter (fun write => write.slot == i)
      = [⟨i, task tasks[i]⟩] := by
  refine List.perm_singleton.1 ((h.perm.filter _).symm.trans ?_)
  rw [filter_slot_pending_start hworkers hi]

/-- **In the end the slots hold the results of the tasks in order**, whatever the order they
were written in. -/
theorem Run.slots_eq_map (h : Run (start workers blank task tasks) written q)
    (hworkers : 0 < workers) (hfinished : q.Finished) : q.slots = tasks.map task := by
  have hperm := h.perm
  rw [finished_iff.1 hfinished, List.append_nil, pending_start_flatten] at hperm
  rw [h.slots_eq]
  exact fill_eq_of_mem_iff
    (fun write => hperm.mem_iff.symm.trans (mem_flatMap_writes hworkers)) (by simp [start])

end Pool

end Schedule

/-! ### Marking -/

open Schedule

theorem prepare_workers (settings : Settings) (workers : Nat) (rules : List Rule)
    (store : FormulaStore) :
    prepare { settings with workers := workers } rules store = prepare settings rules store := by
  induction rules generalizing store with
  | nil => rfl
  | cons rule rest ih => simp only [prepare, ih]; rfl

/-- **What is reported does not depend on the number of workers.** -/
theorem mark_workers (settings : Settings) (workers : Nat) (rules : List Rule) (table : Table)
    (store : FormulaStore) :
    mark { settings with workers := workers } rules table store
      = mark settings rules table store := by
  -- the number of workers is asked nowhere, neither for the refusal nor for the marks
  cases hcolumn : table.column? settings.variableColumn with
  | none =>
    rw [mark_eq_error { settings with workers := workers } rules table store hcolumn,
      mark_eq_error settings rules table store hcolumn]
  | some variableColumn =>
    rw [mark_eq_ok { settings with workers := workers } rules table store hcolumn,
      mark_eq_ok settings rules table store hcolumn, tableMarks, tableMarks, prepare_workers]
    rfl

/-- **A table is marked alike with any number of workers, however they get on.** Whatever
happens when more than one worker is at the value columns, each goes through its stride, they
can always go on until nothing is left, and by then each slot has been written once, with the
marks of its column; what is reported is gathered from the slots, as it is where the columns
are done one after the other. -/
theorem mark_of_pool_run (settings : Settings) (rules : List Rule) (table : Table)
    (store : FormulaStore) {variableColumn : Nat}
    (hcolumn : table.column? settings.variableColumn = some variableColumn)
    (hworkers : 1 < workerCount (table.valueColumns settings variableColumn) settings.workers) :
    let columns := table.valueColumns settings variableColumn
    let prepared := prepare settings rules store
    let task := columnMarks settings table variableColumn prepared.ready
    let workers := workerCount columns settings.workers
    (∀ worker < workers,
      (writes task columns workers worker).map Write.slot
        = stride worker workers columns.length) ∧
    ∀ written pool, (Pool.start workers [] task columns).Run written pool →
      (∃ rest last, pool.Run rest last ∧ last.Finished) ∧
      (pool.Finished →
        (∀ i (hi : i < columns.length),
          written.filter (fun write => write.slot == i) = [⟨i, task columns[i]⟩]) ∧
        ∀ number ∈ [0, 1, settings.workers],
          mark { settings with workers := number } rules table store
            = .ok (⟨gather pool.slots.flatten, prepared.issues⟩, prepared.store)) := by
  intro columns prepared task workers
  have hpos : 0 < workers := Nat.zero_lt_of_lt hworkers
  refine ⟨fun worker hworker => slots_writes task columns hworker, fun written pool run =>
    ⟨pool.exists_run_finished, fun hfinished => ⟨fun i hi => ?_, fun number _ => ?_⟩⟩⟩
  · have hslot := run.filter_slot hpos hi
    rwa [Pool.finished_iff.1 hfinished, List.append_nil] at hslot
  · -- what is reported is gathered from the marks of the columns in order, as the slots hold them
    have hslots : pool.slots.flatten = tableMarks settings rules table variableColumn store := by
      rw [run.slots_eq_map hpos hfinished, ← List.flatMap_def]
      rfl
    calc mark { settings with workers := number } rules table store
        = mark settings rules table store := mark_workers settings number rules table store
      _ = .ok (⟨gather (tableMarks settings rules table variableColumn store), prepared.issues⟩,
            prepared.store) := mark_eq_ok settings rules table store hcolumn
      _ = .ok (⟨gather pool.slots.flatten, prepared.issues⟩, prepared.store) := by rw [hslots]

/-- Three columns between two workers, of which the second is done before the first begins. -/
theorem mark_of_pool_run_of_late_worker :
    let settings : Settings := { workers := 2 }
    let rule : Rule := { id := utf8 "1", name := utf8 "Iron", formula := utf8 "Fe > 1" }
    let table : Table := ⟨[utf8 "Variable", utf8 "March", utf8 "April", utf8 "May"],
      [[.text (utf8 "Fe"), .number 2.0, .number 0.5, .number 3.0]]⟩
    let prepared := prepare settings [rule] .empty
    let task := columnMarks settings table 0 prepared.ready
    ∃ pool, (Pool.start 2 [] task (table.valueColumns settings 0)).Run
        [⟨1, task (utf8 "April", 2)⟩, ⟨0, task (utf8 "March", 1)⟩, ⟨2, task (utf8 "May", 3)⟩]
        pool ∧
      pool.Finished ∧
      mark { settings with workers := 1 } [rule] table .empty
        = .ok (⟨gather pool.slots.flatten, prepared.issues⟩, prepared.store) := by
  intro settings rule table prepared task
  have hcolumns : table.valueColumns settings 0
      = [(utf8 "March", 1), (utf8 "April", 2), (utf8 "May", 3)] := by decide
  have hcount : workerCount (table.valueColumns settings 0) settings.workers = 2 := by
    rw [hcolumns]
    rfl
  have hstart : Pool.start 2 [] task (table.valueColumns settings 0)
      = ⟨[[⟨0, task (utf8 "March", 1)⟩, ⟨2, task (utf8 "May", 3)⟩],
          [⟨1, task (utf8 "April", 2)⟩]], [[], [], []]⟩ := by
    rw [hcolumns]
    rfl
  have hcolumn : table.column? settings.variableColumn = some 0 := by decide
  obtain ⟨-, h⟩ := mark_of_pool_run settings [rule] table .empty hcolumn (by rw [hcount]; decide)
  rw [hcount] at h
  obtain ⟨pool, run, hfinished⟩ : ∃ pool, (Pool.start 2 [] task
        (table.valueColumns settings 0)).Run [⟨1, task (utf8 "April", 2)⟩,
          ⟨0, task (utf8 "March", 1)⟩, ⟨2, task (utf8 "May", 3)⟩] pool ∧ pool.Finished := by
    rw [hstart]
    exact ⟨_, .cons (.work [[_, _]] [] [] _ _) (.cons (.work [] [[]] [_] _ _)
      (.cons (.work [] [[]] [] _ _) (.nil _))), by simp [Pool.Finished]⟩
  exact ⟨pool, run, hfinished, ((h _ _ run).2 hfinished).2 1 (by simp)⟩

end AssayRules
