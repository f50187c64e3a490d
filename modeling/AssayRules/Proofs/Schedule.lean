import AssayRules.Marking.Schedule
import Mathlib.Tactic.Common

/-!
# Sharing work changes no result

Whatever the number of workers, the slots end up holding the results of the tasks in the
order of the tasks (`Schedule.run_eq_map`). Two facts carry this: every write puts into
its slot what the task of that slot gives, so that no order of writes can spoil a slot
that has been written, and every slot is in the share of the worker whose number is its
remainder.
-/

namespace AssayRules

namespace Schedule

variable {α β : Type}

/-- A write is faithful to some results if it puts into its slot what they have there. -/
def Write.Faithful (results : List β) (write : Write β) : Prop :=
  results[write.slot]? = some write.result

@[simp] theorem length_fill (slots : List β) (written : List (Write β)) :
    (fill slots written).length = slots.length := by
  induction written generalizing slots with
  | nil => rfl
  | cons write rest ih =>
    change (fill (slots.set write.slot write.result) rest).length = _
    rw [ih, List.length_set]

/-- **Faithful writes agree with the results** in every slot that they write, and in every
slot that agreed before. -/
theorem getElem?_fill {results slots : List β} {written : List (Write β)}
    (hfaithful : ∀ write ∈ written, write.Faithful results)
    (hlength : slots.length = results.length) {i : Nat}
    (h : (∃ write ∈ written, write.slot = i) ∨ slots[i]? = results[i]?) :
    (fill slots written)[i]? = results[i]? := by
  -- write by write, where the slot may be filled already or is yet to be written
  induction written generalizing slots with
  | nil =>
    rcases h with ⟨write, hmem, -⟩ | h
    · cases hmem
    · exact h
  | cons write rest ih =>
    change (fill (slots.set write.slot write.result) rest)[i]? = _
    have hwrite := hfaithful write List.mem_cons_self
    refine ih (fun w hw => hfaithful w (List.mem_cons_of_mem _ hw))
      (by rw [List.length_set, hlength]) ?_
    by_cases hi : write.slot = i
    · -- the slot agrees from now on
      subst hi
      refine Or.inr ?_
      obtain ⟨hlt, -⟩ := List.getElem?_eq_some_iff.1 hwrite
      rw [List.getElem?_set_self (by rw [hlength]; exact hlt), hwrite]
    · -- another slot is written, so what is known of this one stays
      rcases h with ⟨w, hmem, hslot⟩ | h
      · rcases List.mem_cons.1 hmem with rfl | hmem
        · exact absurd hslot hi
        · exact Or.inl ⟨w, hmem, hslot⟩
      · exact Or.inr (by rw [List.getElem?_set_ne hi, h])

/-- What a worker writes: the results of the tasks in its share. -/
theorem mem_writes {task : α → β} {tasks : List α} {workers worker : Nat} {write : Write β} :
    write ∈ writes task tasks workers worker ↔
      write.slot % workers = worker ∧ write.Faithful (tasks.map task) := by
  simp only [writes, share, Write.Faithful, List.mem_map, List.mem_filter, beq_iff_eq,
    Prod.exists, List.mem_zipIdx_iff_getElem?, List.getElem?_map, Option.map_eq_some_iff]
  constructor
  · rintro ⟨input, slot, ⟨hinput, hmod⟩, rfl⟩
    exact ⟨hmod, input, hinput, rfl⟩
  · rintro ⟨hmod, input, hinput, hresult⟩
    exact ⟨input, write.slot, ⟨hinput, hmod⟩, by rw [hresult]⟩

/-- **What all workers write**: the results of all tasks, as every slot belongs to the worker
whose number is its remainder. -/
theorem mem_flatMap_writes {task : α → β} {tasks : List α} {workers : Nat} {write : Write β}
    (hworkers : 0 < workers) :
    write ∈ (List.range workers).flatMap (writes task tasks workers) ↔
      write.Faithful (tasks.map task) := by
  rw [List.mem_flatMap]
  constructor
  · rintro ⟨worker, -, hmem⟩
    exact (mem_writes.1 hmem).2
  · intro h
    exact ⟨write.slot % workers, List.mem_range.2 (Nat.mod_lt _ hworkers),
      mem_writes.2 ⟨rfl, h⟩⟩

/-- **Slots hold the results once these have all been written**, in any order and any number of
times. -/
theorem fill_eq_of_mem_iff {results slots : List β} {written : List (Write β)}
    (hwritten : ∀ write, write ∈ written ↔ write.Faithful results)
    (hlength : slots.length = results.length) : fill slots written = results := by
  refine List.ext_getElem? fun i =>
    getElem?_fill (fun write hmem => (hwritten write).1 hmem) hlength ?_
  by_cases hi : i < results.length
  · exact Or.inl ⟨⟨i, results[i]⟩, (hwritten _).2 (List.getElem?_eq_getElem hi), rfl⟩
  · -- behind the results there are no slots, and so nothing that could differ
    have hge := Nat.le_of_not_lt hi
    exact Or.inr (by rw [List.getElem?_eq_none (hlength ▸ hge), List.getElem?_eq_none hge])

/-- **The results do not depend on the number of workers**: they are those of the tasks,
in order. -/
theorem run_eq_map (workers : Nat) (blank : β) (task : α → β) (tasks : List α) :
    run workers blank task tasks = tasks.map task := by
  by_cases hcount : workerCount tasks workers ≤ 1
  · exact if_pos hcount
  · refine (if_neg hcount).trans ?_
    rw [List.flatMap_map]
    exact fill_eq_of_mem_iff (fun write => mem_flatMap_writes (by omega)) (by simp)

end Schedule

end AssayRules
