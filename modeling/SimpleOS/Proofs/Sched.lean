import SimpleOS.Lib.Tally
import SimpleOS.Model.Sched

/-! # What the scheduler calls do to the queues -/

namespace SimpleOS.Model.Sched

open Lib

variable {ι : Type} {s t : Sched ι} {prio : ℕ} {p q : ι}

/-- The level of a priority has room for one more process. -/
def Accepts (s : Sched ι) (prio : ℕ) : Prop :=
  ∃ bound : prio < maxPrio, (s.mlqReadyQueue ⟨prio, bound⟩).length < maxQueueSize

@[simp] theorem setQueue_mlqReadyQueue {level : Fin maxPrio} {queue : List ι} :
    (s.setQueue level queue).mlqReadyQueue = Function.update s.mlqReadyQueue level queue := rfl

/-- All levels before the one the loop stops at are empty. -/
private theorem empty_of_lt_firstReady {level smaller : Fin maxPrio} (first : s.firstReady = some level)
    (lower : smaller < level) : s.mlqReadyQueue smaller = [] := by
  obtain ⟨_, before, behind, levels, skipped⟩ := List.find?_eq_some_iff_append.mp first
  have sorted := List.pairwise_lt_finRange maxPrio
  have member := List.mem_finRange smaller
  rw [levels] at sorted member
  obtain earlier | here | later := (List.mem_append.mp member).imp_right List.mem_cons.mp
  · simpa using skipped smaller earlier
  · exact absurd here (ne_of_lt lower)
  · have above := List.rel_of_pairwise_cons (List.pairwise_append.mp sorted).2.1 later
    exact absurd (lower.trans above) (lt_irrefl _)

/-- `get_proc` takes the head of the first level with a process, records the level and puts the process
on the running list. -/
theorem getProc_first (got : s.getProc = (t, some p)) :
    ∃ level rest, s.mlqReadyQueue level = p :: rest ∧ (∀ smaller < level, s.mlqReadyQueue smaller = []) ∧
      t.mlqReadyQueue = Function.update s.mlqReadyQueue level rest ∧
      t.runningList = enqueue s.runningList p ∧ t.currentPrio = level := by
  simp only [getProc, takeReady] at got
  cases first : s.firstReady with
  | none => simp [first] at got
  | some level =>
    cases queue : s.mlqReadyQueue level with
    | nil => simp [first, queue, dequeue] at got
    | cons head rest =>
      simp only [first, queue, dequeue, setQueue, Prod.mk.injEq, Option.some.injEq] at got
      obtain ⟨rfl, rfl⟩ := got
      refine ⟨level, rest, queue, ?_, rfl, rfl, rfl⟩
      intro smaller lower
      exact empty_of_lt_firstReady first lower

/-- `get_proc` takes the head of a level and puts it on the running list. -/
theorem getProc_some (got : s.getProc = (t, some p)) :
    ∃ level rest, s.mlqReadyQueue level = p :: rest ∧
      t.mlqReadyQueue = Function.update s.mlqReadyQueue level rest ∧
      t.runningList = enqueue s.runningList p := by
  obtain ⟨level, rest, queue, _, taken, running, _⟩ := getProc_first got
  exact ⟨level, rest, queue, taken, running⟩

/-- `get_proc` returns no process only when all levels are empty. -/
theorem getProc_none (got : s.getProc = (t, none)) :
    (∀ level, s.mlqReadyQueue level = []) ∧ t.mlqReadyQueue = s.mlqReadyQueue ∧
      t.runningList = s.runningList := by
  simp only [getProc, takeReady] at got
  cases first : s.firstReady with
  | none =>
    simp only [first, Prod.mk.injEq, and_true] at got
    subst got
    refine ⟨fun level => ?_, rfl, rfl⟩
    have empty := List.find?_eq_none.mp first level (List.mem_finRange level)
    simpa using empty
  | some level =>
    have ready := List.find?_some first
    cases queue : s.mlqReadyQueue level with
    | nil => simp [queue] at ready
    | cons head rest => simp [first, queue, dequeue] at got

theorem getProc_of_empty (empty : ∀ level, s.mlqReadyQueue level = []) : s.getProc.2 = none := by
  cases got : s.getProc with
  | mk t proc =>
    cases proc with
    | none => rfl
    | some p =>
      obtain ⟨level, rest, queue, _, _⟩ := getProc_some got
      rw [empty level] at queue
      cases queue

theorem addProc_accepted (accepted : s.Accepts prio) :
    ∃ level : Fin maxPrio, level = prio ∧ (s.addProc prio p).mlqReadyQueue =
      Function.update s.mlqReadyQueue level (s.mlqReadyQueue level ++ [p]) := by
  obtain ⟨bound, room⟩ := accepted
  refine ⟨⟨prio, bound⟩, rfl, ?_⟩
  rw [addProc, dif_pos bound, enqueue, if_neg (by omega)]
  rfl

theorem addProc_refused (refused : ¬s.Accepts prio) : s.addProc prio p = s := by
  rw [addProc]
  split
  · rename_i bound
    have full : maxQueueSize ≤ (s.mlqReadyQueue ⟨prio, bound⟩).length :=
      Nat.le_of_not_lt fun room => refused ⟨bound, room⟩
    rw [enqueue, if_pos full, setQueue, Function.update_eq_self]
  · rfl

@[simp] theorem addProc_runningList : (s.addProc prio p).runningList = s.runningList := by
  rw [addProc]
  split <;> rfl

variable [DecidableEq ι]

/-- How often a process occurs in the ready queues. -/
def queued (s : Sched ι) (p : ι) : ℕ := tally (List.count p) s.mlqReadyQueue

theorem queued_init (p : ι) : (init : Sched ι).queued p = 0 := tally_eq_zero_iff.mpr fun _ => rfl

theorem queued_eq_zero_iff : s.queued p = 0 ↔ ∀ level, p ∉ s.mlqReadyQueue level := by
  simp only [queued, tally_eq_zero_iff, List.count_eq_zero]

/-- The ready queues after `put_proc` are those after `add_proc`. -/
@[simp] theorem putProc_mlqReadyQueue :
    (s.putProc prio p).mlqReadyQueue = (s.addProc prio p).mlqReadyQueue := by
  simp only [putProc, addProc]
  split <;> rfl

@[simp] theorem putProc_runningList : (s.putProc prio p).runningList = s.runningList.erase p := by
  rw [putProc, addProc_runningList, purgequeue]

theorem queued_congr (same : t.mlqReadyQueue = s.mlqReadyQueue) : t.queued q = s.queued q := by
  rw [queued, same, queued]

@[simp] theorem putProc_queued : (s.putProc prio p).queued q = (s.addProc prio p).queued q :=
  queued_congr putProc_mlqReadyQueue

theorem getProc_queued (got : s.getProc = (t, some p)) :
    t.queued q + (if p = q then 1 else 0) = s.queued q := by
  obtain ⟨level, rest, queue, taken, _⟩ := getProc_some got
  have balance := tally_update (List.count q) s.mlqReadyQueue level rest
  rw [queue, List.count_cons] at balance
  simp only [beq_iff_eq] at balance
  rw [queued, taken, queued]
  omega

theorem addProc_queued (accepted : s.Accepts prio) :
    (s.addProc prio p).queued q = s.queued q + if p = q then 1 else 0 := by
  obtain ⟨level, _, added⟩ := addProc_accepted (p := p) accepted
  have balance := tally_update (List.count q) s.mlqReadyQueue level (s.mlqReadyQueue level ++ [p])
  rw [List.count_append, List.count_singleton] at balance
  simp only [beq_iff_eq] at balance
  rw [queued, added, queued]
  omega

/-- Every process is in the queue of its own priority. -/
def Sorted (s : Sched ι) (prio : ι → ℕ) : Prop := ∀ level, ∀ p ∈ s.mlqReadyQueue level, level = prio p

omit [DecidableEq ι] in
theorem Sorted.getProc {prio : ι → ℕ} (sorted : s.Sorted prio) {proc : Option ι}
    (got : s.getProc = (t, proc)) : t.Sorted prio := by
  intro level q member
  cases proc with
  | none =>
    rw [(getProc_none got).2.1] at member
    exact sorted level q member
  | some p =>
    obtain ⟨first, rest, queue, taken, _⟩ := getProc_some got
    rw [taken, Function.update_apply] at member
    split at member
    · rename_i here
      subst here
      exact sorted level q (queue ▸ List.mem_cons_of_mem p member)
    · exact sorted level q member

omit [DecidableEq ι] in
theorem Sorted.addProc {prio : ι → ℕ} (sorted : s.Sorted prio) (p : ι) :
    (s.addProc (prio p) p).Sorted prio := by
  intro level q member
  by_cases accepted : s.Accepts (prio p)
  · obtain ⟨own, level_eq, added⟩ := addProc_accepted (p := p) accepted
    rw [added, Function.update_apply] at member
    split at member
    · rename_i here
      subst here
      obtain old | new := List.mem_append.mp member
      · exact sorted level q old
      · rw [List.mem_singleton.mp new]
        exact level_eq
    · exact sorted level q member
  · rw [addProc_refused accepted] at member
    exact sorted level q member

/-- With at most as many processes as places, the level of an absent process has room. -/
theorem accepts_of_card {N : ℕ} {s : Sched (Fin N)} {p : Fin N} (small : N ≤ maxQueueSize)
    (bound : prio < maxPrio) (once : ∀ q, s.queued q ≤ 1) (absent : s.queued p = 0) : s.Accepts prio := by
  refine ⟨bound, ?_⟩
  have distinct : (p :: s.mlqReadyQueue ⟨prio, bound⟩).Nodup := by
    refine List.nodup_cons.mpr ⟨queued_eq_zero_iff.mp absent _, List.nodup_iff_count_le_one.mpr fun q => ?_⟩
    exact (le_tally (List.count q) s.mlqReadyQueue ⟨prio, bound⟩).trans (once q)
  have few := distinct.length_le_card
  rw [List.length_cons, Fintype.card_fin] at few
  omega

end SimpleOS.Model.Sched
