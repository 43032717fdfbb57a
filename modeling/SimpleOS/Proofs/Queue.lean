import Mathlib.Data.List.Basic
import SimpleOS.Model.Queue
import SimpleOS.Proofs.Sched

/-! # The array scheduler refines the list scheduler

`Queue.Holds` relates an array to the list of the entries in use. From a queue that holds a list no
function of `queue.c` leaves the array, and each leaves a queue that holds the list the function of
the same name in `Model.Sched` gives.
-/

namespace SimpleOS.Model

variable {ι : Type}

namespace Queue

variable {q : Queue ι} {l : List (Option ι)} {entry : Option ι} {i count : ℕ}

/-- The entries `proc[0..size)` are those of a list. -/
structure Holds (q : Queue ι) (l : List (Option ι)) : Prop where
  size : q.size = l.length
  bound : l.length ≤ maxQueueSize
  load : ∀ i entry, l[i]? = some entry → q.load i = some entry

private theorem Holds.empty_iff (held : q.Holds l) : q.empty = true ↔ l = [] := by
  rw [empty, beq_iff_eq, held.size, List.length_eq_zero_iff]

private theorem store_some (q : Queue ι) (entry : Option ι) (bound : i < maxQueueSize) :
    ∃ after, q.store i entry = some after ∧ after.size = q.size ∧
      ∀ j, after.load j = if i = j then some entry else q.load j := by
  refine ⟨_, dif_pos bound, rfl, ?_⟩
  intro j
  exact Vector.getElem?_set bound

/-- The loop stays inside the array and moves each entry of its range down by one place. -/
private theorem shift_some (q : Queue ι) (room : i + count < maxQueueSize) :
    ∃ after, q.shift i count = some after ∧ after.size = q.size ∧
      ∀ j, after.load j = if i ≤ j ∧ j < i + count then q.load (j + 1) else q.load j := by
  induction count generalizing q i with
  | zero =>
    refine ⟨q, rfl, rfl, ?_⟩
    intro j
    rw [if_neg (by omega)]
  | succ count ih =>
    obtain ⟨next, loaded⟩ : ∃ next, q.load (i + 1) = some next :=
      ⟨_, Vector.getElem?_eq_getElem (by omega)⟩
    obtain ⟨moved, stored, size, entries⟩ := store_some q next (by omega : i < maxQueueSize)
    obtain ⟨after, shifted, size', entries'⟩ := ih (i := i + 1) moved (by omega)
    refine ⟨after, ?_, size'.trans size, ?_⟩
    · simp only [shift, loaded, Option.bind_eq_bind, Option.bind_some, stored]
      exact shifted
    · intro j
      rw [entries' j]
      by_cases inside : i + 1 ≤ j ∧ j < i + 1 + count
      · rw [if_pos inside, if_pos (by omega), entries, if_neg (by omega)]
      · rw [if_neg inside, entries]
        by_cases here : i = j
        · subst here
          rw [if_pos rfl, if_pos (by omega), loaded]
        · rw [if_neg here, if_neg (by omega)]

/-- Closing the gap at index `i` erases that entry. -/
private theorem Holds.shift (held : q.Holds l) (inside : i < l.length) :
    ∃ after, q.shift i (q.size - 1 - i) = some after ∧ after.size = q.size ∧
      { after with size := q.size - 1 }.Holds (l.eraseIdx i) := by
  have size := held.size
  have bound := held.bound
  obtain ⟨after, shifted, size', entries⟩ :=
    shift_some q (by omega : i + (q.size - 1 - i) < maxQueueSize)
  refine ⟨after, shifted, size', ?_, ?_, ?_⟩
  · rw [List.length_eraseIdx_of_lt inside, size]
  · rw [List.length_eraseIdx_of_lt inside]
    omega
  · intro j entry present
    have small := (List.getElem?_eq_some_iff.mp present).1
    rw [List.length_eraseIdx_of_lt inside] at small
    rw [List.getElem?_eraseIdx] at present
    change after.load j = some entry
    rw [entries j]
    split at present
    · rw [if_neg (by omega)]
      exact held.load j entry present
    · rw [if_pos (by omega)]
      exact held.load (j + 1) entry present

/-- The entry behind those in use may be overwritten. -/
private theorem Holds.clear (held : q.Holds l) (entry : Option ι) (room : q.size < maxQueueSize) :
    ∃ after, q.store q.size entry = some after ∧ after.Holds l := by
  obtain ⟨after, stored, size, entries⟩ := store_some q entry room
  refine ⟨after, stored, size.trans held.size, held.bound, ?_⟩
  intro i entry present
  have small := (List.getElem?_eq_some_iff.mp present).1
  have held_size := held.size
  rw [entries i, if_neg (by omega)]
  exact held.load i entry present

/-- `enqueue` appends a process while there is room. -/
theorem Holds.enqueue (held : q.Holds l) (p : ι) :
    ∃ after, q.enqueue (some p) = some after ∧ after.Holds (Model.enqueue l (some p)) := by
  have size := held.size
  rw [Model.enqueue, ← size]
  split
  · rename_i full
    refine ⟨q, ?_, held⟩
    simp [Queue.enqueue, full]
  · rename_i room
    obtain ⟨after, stored, size', entries⟩ :=
      store_some q (some p) (Nat.lt_of_not_le room)
    refine ⟨{ after with size := after.size + 1 }, ?_, ?_, ?_, ?_⟩
    · simp [Queue.enqueue, room, stored]
    · rw [List.length_append, List.length_singleton, ← size, ← size']
    · rw [List.length_append, List.length_singleton]
      omega
    · intro i entry present
      change after.load i = some entry
      rw [entries i]
      split
      · rename_i last
        subst last
        rw [size, List.getElem?_concat_length] at present
        exact present
      · have small := (List.getElem?_eq_some_iff.mp present).1
        rw [List.length_append, List.length_singleton] at small
        rw [List.getElem?_append_left (by omega)] at present
        exact held.load i entry present

/-- `dequeue` returns and removes the first entry. -/
theorem Holds.dequeue (held : q.Holds l) :
    ∃ after, q.dequeue = some (after, l.head?.join) ∧ after.Holds l.tail := by
  cases l with
  | nil =>
    refine ⟨q, ?_, held⟩
    simp [Queue.dequeue, held.empty_iff.mpr rfl]
  | cons entry rest =>
    have first := held.load 0 entry rfl
    obtain ⟨after, shifted, size, closed⟩ := held.shift (i := 0) (by simp)
    have busy : ¬q.empty = true := fun empty => List.cons_ne_nil _ _ (held.empty_iff.mp empty)
    refine ⟨{ after with size := q.size - 1 }, ?_, closed⟩
    rw [Nat.sub_zero] at shifted
    simp [Queue.dequeue, busy, first, shifted, size]

variable [DecidableEq ι]

/-- The search looks for the process behind the entries it has passed. -/
private theorem purgeFrom_some {passed rest : List (Option ι)} (held : q.Holds (passed ++ rest))
    (absent : entry ∉ passed) :
    ∃ after, q.purgeFrom entry passed.length rest.length =
        some (after, if entry ∈ rest then entry else none) ∧
      after.Holds ((passed ++ rest).erase entry) := by
  induction rest generalizing passed with
  | nil =>
    refine ⟨q, rfl, ?_⟩
    rw [List.append_nil] at held ⊢
    rwa [List.erase_of_not_mem absent]
  | cons next rest ih =>
    have loaded : q.load passed.length = some next := held.load _ _ (by simp)
    by_cases found : next = entry
    · subst found
      obtain ⟨after, shifted, size, closed⟩ := held.shift (i := passed.length) (by simp)
      have room : q.size - 1 < maxQueueSize := by
        have bound := held.bound
        rw [← held.size] at bound
        exact lt_of_le_of_lt (Nat.sub_le_sub_right bound 1) (by decide)
      obtain ⟨cleared, stored, cleared_holds⟩ := closed.clear none room
      refine ⟨cleared, ?_, ?_⟩
      · simp only [List.length_cons, purgeFrom, loaded, Option.bind_eq_bind, Option.bind_some, if_true,
          shifted, size, stored, List.mem_cons_self, Option.pure_def]
      · rw [List.eraseIdx_append_of_length_le (le_refl _), Nat.sub_self, List.eraseIdx_cons_zero] at cleared_holds
        rwa [List.erase_append_right _ absent, List.erase_cons_head]
    · have split : passed ++ next :: rest = (passed ++ [next]) ++ rest := by simp
      rw [split] at held ⊢
      obtain ⟨after, searched, left⟩ := ih held (by simp [absent, Ne.symm found])
      refine ⟨after, ?_, left⟩
      rw [List.length_append, List.length_singleton] at searched
      rw [List.length_cons, purgeFrom, loaded, Option.bind_eq_bind, Option.bind_some, if_neg found, searched]
      simp [Ne.symm found]

/-- `purgequeue` removes the first occurrence of a process. -/
theorem Holds.purgequeue (held : q.Holds l) (p : ι) :
    ∃ after, q.purgequeue (some p) = some (after, if some p ∈ l then some p else none) ∧
      after.Holds (l.erase (some p)) := by
  by_cases vacant : q.empty = true
  · have none_left := held.empty_iff.mp vacant
    subst none_left
    exact ⟨q, by simp [Queue.purgequeue, vacant], held⟩
  · obtain ⟨after, searched, left⟩ := purgeFrom_some (show q.Holds ([] ++ l) from held)
      (show some p ∉ [] from List.not_mem_nil)
    refine ⟨after, ?_, left⟩
    rw [Queue.purgequeue, if_neg (by simpa using vacant), held.size]
    exact searched

end Queue

private theorem map_enqueue (l : List ι) (p : ι) : (enqueue l p).map some = enqueue (l.map some) (some p) := by
  simp only [enqueue, List.length_map]
  split
  · rfl
  · rw [List.map_append, List.map_singleton]

namespace Mlq

variable {s : Mlq ι} {a : Sched ι} {prio : ℕ} {p : ι}

/-- The arrays hold the lists of the abstract scheduler, and `slot` is as `init_scheduler` set it. -/
structure Refines (s : Mlq ι) (a : Sched ι) : Prop where
  ready : ∀ level, (s.mlqReadyQueue level).Holds ((a.mlqReadyQueue level).map some)
  running : s.runningList.Holds (a.runningList.map some)
  slot : ∀ level, s.slot level = maxPrio - level

theorem initScheduler_refines (s : Mlq ι) : s.initScheduler.Refines .init := by
  refine ⟨?_, ?_, fun _ => rfl⟩
  · intro level
    exact ⟨rfl, Nat.zero_le _, by simp [Sched.init]⟩
  · exact ⟨rfl, Nat.zero_le _, by simp [Sched.init]⟩

private theorem Refines.setQueue (refined : s.Refines a) {level : Fin maxPrio} {q : Queue ι} {l : List ι}
    (held : q.Holds (l.map some)) : (s.setQueue level q).Refines (a.setQueue level l) := by
  refine ⟨?_, refined.running, refined.slot⟩
  intro other
  simp only [Mlq.setQueue, Sched.setQueue, Function.update_apply]
  split
  · exact held
  · exact refined.ready other

theorem Refines.empty_iff (refined : s.Refines a) (level : Fin maxPrio) :
    (s.mlqReadyQueue level).empty = true ↔ a.mlqReadyQueue level = [] := by
  rw [(refined.ready level).empty_iff, List.map_eq_nil_iff]

/-- The loop over the levels stops at the first one that is not empty. -/
private theorem Refines.takeReady (refined : s.Refines a) (levels : List (Fin maxPrio)) :
    match levels.find? fun prio => !(a.mlqReadyQueue prio).isEmpty with
    | none => s.takeReady levels = some (s, none)
    | some prio => ∃ q, q.Holds ((a.mlqReadyQueue prio).tail.map some) ∧ s.takeReady levels =
        some ({ s.setQueue prio q with currentPrio := prio, currentSlot := 1 },
          (a.mlqReadyQueue prio).head?) := by
  induction levels with
  | nil => rfl
  | cons prio levels ih =>
    have same := refined.empty_iff prio
    cases ready : a.mlqReadyQueue prio with
    | nil =>
      rw [List.find?_cons_of_neg (by simp [ready])]
      simp only [Mlq.takeReady, same.mpr ready, if_true]
      exact ih
    | cons head rest =>
      rw [List.find?_cons_of_pos (by simp [ready])]
      obtain ⟨q, dequeued, left⟩ := (refined.ready prio).dequeue
      have busy : ¬(s.mlqReadyQueue prio).empty = true := by
        rw [same, ready]
        exact List.cons_ne_nil _ _
      refine ⟨q, ?_, ?_⟩
      · rwa [List.map_tail]
      · simp only [Mlq.takeReady, busy, dequeued, ready]
        rfl

/-- `get_mlq_proc` does on the arrays what `get_proc` does on the lists. -/
theorem Refines.getMlqProc (refined : s.Refines a) :
    ∃ t, s.getMlqProc = some (t, a.getProc.2) ∧ t.Refines a.getProc.1 ∧
      t.currentPrio = a.getProc.1.currentPrio := by
  have taken := refined.takeReady (List.finRange maxPrio)
  change match a.firstReady with | none => _ | some prio => _ at taken
  cases first : a.firstReady with
  | none =>
    rw [first] at taken
    refine ⟨{ s with currentPrio := 0, currentSlot := 0 }, ?_, ?_, ?_⟩
    · simp [Mlq.getMlqProc, taken, Sched.getProc, Sched.takeReady, first]
    · simp only [Sched.getProc, Sched.takeReady, first]
      exact ⟨refined.ready, refined.running, refined.slot⟩
    · simp [Sched.getProc, Sched.takeReady, first]
  | some level =>
    rw [first] at taken
    obtain ⟨q, left, taken⟩ := taken
    have ready := List.find?_some first
    cases queue : a.mlqReadyQueue level with
    | nil => simp [queue] at ready
    | cons head rest =>
      rw [queue] at left taken
      obtain ⟨running, enqueued, run⟩ := refined.running.enqueue head
      refine ⟨{ s.setQueue level q with runningList := running, currentPrio := level, currentSlot := 1 }, ?_, ?_, ?_⟩
      · simp [Mlq.getMlqProc, taken, Sched.getProc, Sched.takeReady, first, queue, dequeue, enqueued, Mlq.setQueue]
      · simp only [Sched.getProc, Sched.takeReady, first, queue, dequeue]
        have updated : (s.setQueue level q).Refines (a.setQueue level rest) := refined.setQueue left
        refine ⟨updated.ready, ?_, refined.slot⟩
        rwa [map_enqueue]
      · simp [Sched.getProc, Sched.takeReady, first, queue, dequeue]

/-- `add_mlq_proc` does on the arrays what `add_proc` does on the lists. -/
theorem Refines.addMlqProc (refined : s.Refines a) (prio : ℕ) (p : ι) :
    ∃ t, s.addMlqProc prio p = some t ∧ t.Refines (a.addProc prio p) := by
  rw [Mlq.addMlqProc, Sched.addProc]
  split
  · rename_i bound
    obtain ⟨q, enqueued, held⟩ := (refined.ready ⟨prio, bound⟩).enqueue p
    rw [← map_enqueue] at held
    refine ⟨s.setQueue ⟨prio, bound⟩ q, ?_, refined.setQueue held⟩
    rw [enqueued, Option.bind_eq_bind, Option.bind_some, Option.pure_def]
  · exact ⟨s, rfl, refined⟩

/-- `put_mlq_proc` does on the arrays what `put_proc` does on the lists. -/
theorem Refines.putMlqProc [DecidableEq ι] (refined : s.Refines a) (prio : ℕ) (p : ι) :
    ∃ t, s.putMlqProc prio (some p) = some t ∧ t.Refines (a.putProc prio p) := by
  obtain ⟨running, purged, held⟩ := refined.running.purgequeue p
  rw [← List.map_erase (Option.some_injective ι)] at held
  have removed : { s with runningList := running }.Refines
      { a with runningList := purgequeue a.runningList p } :=
    ⟨refined.ready, held, refined.slot⟩
  obtain ⟨t, added, left⟩ := removed.addMlqProc prio p
  refine ⟨t, ?_, left⟩
  rw [Mlq.putMlqProc, purged, Option.bind_eq_bind, Option.bind_some]
  exact added

end Mlq

end SimpleOS.Model
