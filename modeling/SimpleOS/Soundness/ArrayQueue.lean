import SimpleOS.Proofs.Queue

/-! # Array queues as lists

A `queue_t` stands for the list of its entries in use, whatever they are. Each function of `queue.c` does on
the array what a list operation does on that list, and so does every sequence of calls. Where no entry in use
is `NULL`, which `enqueue` sees to, a result of `NULL` tells that there was nothing to return.
-/

namespace SimpleOS.Model

variable {ι : Type}

/-- The list `proc[0..size)`. -/
def Queue.entries (q : Queue ι) : List (Option ι) := q.proc.toList.take q.size

/-- A call of `queue.c`, with its argument. -/
inductive QueueCall (ι : Type)
  | enqueue (proc : Option ι)
  | dequeue
  | purgequeue (proc : Option ι)

variable [DecidableEq ι]

namespace Queue

/-- One call, with the pointer it returns. -/
def call (q : Queue ι) : QueueCall ι → Option (Queue ι × Option ι)
  | .enqueue proc => do return (← q.enqueue proc, none)
  | .dequeue => q.dequeue
  | .purgequeue proc => q.purgequeue proc

/-- A sequence of calls, with the pointers they return. -/
def calls (q : Queue ι) : List (QueueCall ι) → Option (Queue ι × List (Option ι))
  | [] => some (q, [])
  | next :: rest => do
    let (q, proc) ← q.call next
    let (q, procs) ← q.calls rest
    return (q, proc :: procs)

end Queue

namespace QueueCall

/-- What a call does to a list. -/
def onList (l : List (Option ι)) : QueueCall ι → List (Option ι) × Option ι
  | .enqueue none => (l, none)
  | .enqueue (some p) => (if l.length < maxQueueSize then l ++ [some p] else l, none)
  | .dequeue => (l.tail, l.head?.join)
  | .purgequeue none => (l, none)
  | .purgequeue (some p) => (l.erase (some p), if some p ∈ l then some p else none)

/-- What a sequence of calls does to a list. -/
def allOnList (l : List (Option ι)) : List (QueueCall ι) → List (Option ι) × List (Option ι)
  | [] => (l, [])
  | next :: rest =>
    let (l, proc) := next.onList l
    let (l, procs) := allOnList l rest
    (l, proc :: procs)

end QueueCall

namespace Queue

variable {q : Queue ι} {l : List (Option ι)}

omit [DecidableEq ι] in
private theorem getElem?_entries (q : Queue ι) (i : ℕ) : q.entries[i]? = if i < q.size then q.load i else none := by
  rw [entries, List.getElem?_take, load, Vector.getElem?_toList]

omit [DecidableEq ι] in
private theorem Holds.entries_eq (held : q.Holds l) : q.entries = l := by
  apply List.ext_getElem?
  intro i
  rw [getElem?_entries, held.size]
  split
  · rename_i inside
    rw [List.getElem?_eq_getElem inside]
    exact held.load i _ (List.getElem?_eq_getElem inside)
  · rename_i outside
    exact (List.getElem?_eq_none (by omega)).symm

omit [DecidableEq ι] in
private theorem holds_entries (bound : q.size ≤ maxQueueSize) : q.Holds q.entries := by
  have length : q.entries.length = q.size := by simp [entries, bound]
  refine ⟨length.symm, length ▸ bound, ?_⟩
  intro i entry present
  rw [getElem?_entries] at present
  split at present
  · exact present
  · cases present

omit [DecidableEq ι] in
private theorem enqueue_full (full : q.size = maxQueueSize) (p : ι) : q.enqueue (some p) = some q := by
  simp [enqueue, full]

/-- One call on the array is that call on the list. -/
private theorem Holds.call (held : q.Holds l) (next : QueueCall ι) :
    ∃ after, q.call next = some (after, (next.onList l).2) ∧ after.Holds (next.onList l).1 := by
  cases next with
  | enqueue proc =>
    cases proc with
    | none => exact ⟨q, rfl, held⟩
    | some p =>
      obtain ⟨after, enqueued, holds⟩ := held.enqueue p
      refine ⟨after, by simp [Queue.call, enqueued, QueueCall.onList], ?_⟩
      have same : Model.enqueue l (some p) = (QueueCall.onList l (.enqueue (some p))).1 := by
        simp only [Model.enqueue, QueueCall.onList, ← Nat.not_lt, ite_not]
      rwa [← same]
  | dequeue => exact held.dequeue
  | purgequeue proc =>
    cases proc with
    | none => exact ⟨q, by simp [Queue.call, Queue.purgequeue, QueueCall.onList], held⟩
    | some p => exact held.purgequeue p

/-- A sequence of calls on the array is that sequence on the list. -/
private theorem Holds.calls (held : q.Holds l) (next : List (QueueCall ι)) :
    ∃ after, q.calls next = some (after, (QueueCall.allOnList l next).2) ∧
      after.Holds (QueueCall.allOnList l next).1 := by
  induction next generalizing q l with
  | nil => exact ⟨q, rfl, held⟩
  | cons first rest ih =>
    obtain ⟨now, called, holds⟩ := held.call first
    obtain ⟨after, finished, left⟩ := ih holds
    exact ⟨after, by simp [Queue.calls, called, finished, QueueCall.allOnList], left⟩

end Queue

namespace QueueCall

variable {l : List (Option ι)}

/-- No call puts `NULL` into a list without `NULL`. -/
private theorem onList_clean (clean : none ∉ l) (next : QueueCall ι) : none ∉ (next.onList l).1 := by
  cases next with
  | enqueue proc =>
    cases proc with
    | none => exact clean
    | some p =>
      simp only [onList]
      split
      · simpa using clean
      · exact clean
  | dequeue => exact fun member => clean (List.mem_of_mem_tail member)
  | purgequeue proc =>
    cases proc with
    | none => exact clean
    | some p => exact fun member => clean (List.mem_of_mem_erase member)

private theorem allOnList_clean (clean : none ∉ l) (next : List (QueueCall ι)) : none ∉ (allOnList l next).1 := by
  induction next generalizing l with
  | nil => exact clean
  | cons first rest ih => exact ih (onList_clean clean first)

end QueueCall

/-- The functions of `queue.c` on a queue are the list operations on its entries. A sequence of calls keeps
the size in its bounds and, having a result, accesses no index outside the array. -/
structure Queue.RefinesList (q : Queue ι) : Prop where
  append : q.size < maxQueueSize → ∀ p, ∃ after,
    q.enqueue (some p) = some after ∧ after.entries = q.entries ++ [some p]
  full : q.size = maxQueueSize → ∀ p, q.enqueue (some p) = some q
  dequeue : ∃ after, q.dequeue = some (after, q.entries.head?.join) ∧ after.entries = q.entries.tail
  dequeue_null : none ∉ q.entries → (q.entries.head?.join = none ↔ q.entries = [])
  purge : ∀ p, ∃ after, q.purgequeue (some p) = some (after, if some p ∈ q.entries then some p else none) ∧
    after.entries = q.entries.erase (some p)
  purge_null : q.purgequeue none = some (q, none)
  calls : ∀ next, ∃ after procs, q.calls next = some (after, procs) ∧ after.size ≤ maxQueueSize ∧
    (after.entries, procs) = QueueCall.allOnList q.entries next ∧ (none ∉ q.entries → none ∉ after.entries)

/-- Every queue whose size is in bounds does what the list of its entries does. -/
theorem queue_refines_list (q : Queue ι) (bound : q.size ≤ maxQueueSize) : q.RefinesList := by
  have held := q.holds_entries bound
  constructor
  · intro room p
    obtain ⟨after, enqueued, holds⟩ := held.enqueue p
    refine ⟨after, enqueued, ?_⟩
    rw [holds.entries_eq, enqueue, if_neg (by rw [← held.size]; omega)]
  · exact fun full p => Queue.enqueue_full full p
  · obtain ⟨after, dequeued, holds⟩ := held.dequeue
    exact ⟨after, dequeued, holds.entries_eq⟩
  · intro clean
    cases contents : q.entries with
    | nil => simp
    | cons first rest =>
      cases first with
      | none => exact absurd (contents ▸ List.mem_cons_self) clean
      | some p => simp
  · intro p
    obtain ⟨after, purged, holds⟩ := held.purgequeue p
    exact ⟨after, purged, holds.entries_eq⟩
  · simp [Queue.purgequeue]
  · intro next
    obtain ⟨after, finished, holds⟩ := held.calls next
    refine ⟨after, _, finished, ?_, ?_, ?_⟩
    · rw [holds.size]
      exact holds.bound
    · rw [holds.entries_eq]
    · rw [holds.entries_eq]
      exact fun clean => QueueCall.allOnList_clean clean next

/-- A queue that holds process 0 twice. -/
def Queue.twice : Queue (Fin 2) := ⟨(Vector.replicate _ none).set 0 (some 0) |>.set 1 (some 0), 2⟩

theorem queue_refines_list_twice : Queue.twice.size ≤ maxQueueSize ∧
    Queue.twice.entries = [some 0, some 0] ∧ Queue.twice.RefinesList :=
  ⟨by decide, by decide, queue_refines_list Queue.twice (by decide)⟩

/-- With `NULL` in use, `dequeue` returns `NULL` from a queue that is not empty. -/
theorem dequeue_null_entry :
    let q : Queue (Fin 1) := ⟨Vector.replicate _ none, 1⟩
    q.dequeue.map Prod.snd = some none ∧ q.entries = [none] ∧
      ¬∀ q : Queue (Fin 1), q.size ≤ maxQueueSize → ∀ after proc, q.dequeue = some (after, proc) →
        (proc = none ↔ q.entries = []) := by
  intro q
  have taken : q.dequeue.map Prod.snd = some none := by decide
  refine ⟨taken, by decide, ?_⟩
  intro exactly
  obtain ⟨⟨after, proc⟩, dequeued, null⟩ := Option.map_eq_some_iff.mp taken
  have vacant := (exactly q (by decide) after proc dequeued).mp null
  revert vacant
  decide

end SimpleOS.Model
