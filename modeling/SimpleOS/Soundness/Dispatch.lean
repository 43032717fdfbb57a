import SimpleOS.Lib.Run
import SimpleOS.Proofs.Queue

/-! # The order in which `get_proc` hands out processes

A history records, beside the scheduler, which processes each level was given and which ones
`get_proc` has taken from it since `init_scheduler`. What a level was given is always what was taken
from it followed by what its queue holds. The levels are served in strict order of priority: no
count of the calls served from one level enters the choice.
-/

namespace SimpleOS.Model

variable {ι : Type} [DecidableEq ι]

/-- The process a call offers to a level. -/
def SchedCall.offer : SchedCall ι → Fin maxPrio → Option ι
  | .get, _ => none
  | .put prio proc, level => if prio = level then proc else none
  | .add prio proc, level => if prio = level then some proc else none

/-- The scheduler, the processes appended to each level and those `get_proc` took from it. -/
structure Dispatch (ι : Type) where
  sched : Mlq ι
  appended : Fin maxPrio → List ι
  returned : Fin maxPrio → List ι

namespace Dispatch

/-- After `init_scheduler`. -/
def start (s : Mlq ι) : Dispatch ι := ⟨s.initScheduler, fun _ => [], fun _ => []⟩

/-- A level that is not full appends what it is offered; `get_proc` leaves in `current_prio` the level
it took its process from. -/
def step (h : Dispatch ι) (call : SchedCall ι) : Option (Dispatch ι) := do
  let (sched, proc) ← h.sched.call call
  return {
    sched
    appended := fun level =>
      if (h.sched.mlqReadyQueue level).size < maxQueueSize then
        h.appended level ++ (call.offer level).toList
      else h.appended level
    returned := fun level =>
      if sched.currentPrio = level then h.returned level ++ proc.toList else h.returned level }

/-- What a level was given is what was taken from it and what it still holds. -/
def Fifo (h : Dispatch ι) : Prop :=
  ∃ a, h.sched.Refines a ∧ ∀ level, h.appended level = h.returned level ++ a.mlqReadyQueue level

omit [DecidableEq ι] in
private theorem start_fifo (s : Mlq ι) : (start s).Fifo := ⟨.init, s.initScheduler_refines, fun _ => rfl⟩

end Dispatch

namespace Sched

/-- The call on the list scheduler. -/
def call (a : Sched ι) : SchedCall ι → Sched ι × Option ι
  | .get => a.getProc
  | .put _ none => (a, none)
  | .put prio (some proc) => (a.putProc prio proc, none)
  | .add prio proc => (a.addProc prio proc, none)

omit [DecidableEq ι] in
private theorem addProc_queue (a : Sched ι) (prio : ℕ) (p : ι) (level : Fin maxPrio) :
    (a.addProc prio p).mlqReadyQueue level =
      if (a.mlqReadyQueue level).length < maxQueueSize then
        a.mlqReadyQueue level ++ (if prio = level then some p else none).toList
      else a.mlqReadyQueue level := by
  by_cases here : prio = level
  · subst here
    rw [addProc, dif_pos level.isLt, setQueue_mlqReadyQueue, Function.update_self, enqueue, if_pos rfl,
      Option.toList_some, Fin.eta]
    split_ifs with full room room
    · omega
    · rfl
    · rfl
    · omega
  · rw [if_neg here, Option.toList_none, List.append_nil, ite_self, addProc]
    split
    · rw [setQueue_mlqReadyQueue, Function.update_of_ne]
      exact fun same => here (Fin.val_eq_of_eq same).symm
    · rfl

end Sched

/-- Every call on the arrays does what it does on the lists. -/
theorem Mlq.Refines.call {s : Mlq ι} {a : Sched ι} (refined : s.Refines a) (call : SchedCall ι) :
    ∃ t, s.call call = some (t, (a.call call).2) ∧ t.Refines (a.call call).1 ∧
      (call = .get → t.currentPrio = (a.call call).1.currentPrio) := by
  cases call with
  | get =>
    obtain ⟨t, got, left, level⟩ := refined.getMlqProc
    exact ⟨t, got, left, fun _ => level⟩
  | put prio proc =>
    cases proc with
    | none => exact ⟨s, rfl, refined, nofun⟩
    | some p =>
      obtain ⟨t, put, left⟩ := refined.putMlqProc prio p
      exact ⟨t, by simp only [Mlq.call, put]; rfl, left, nofun⟩
  | add prio p =>
    obtain ⟨t, added, left⟩ := refined.addMlqProc prio p
    exact ⟨t, by simp only [Mlq.call, added]; rfl, left, nofun⟩

namespace Dispatch

/-- `add_proc` and `put_proc` append what they offer to a level with room. -/
private theorem call_queue_of_ne_get (a : Sched ι) {call : SchedCall ι} (other : call ≠ .get) (level : Fin maxPrio) :
    (a.call call).2 = none ∧ (a.call call).1.mlqReadyQueue level =
      if (a.mlqReadyQueue level).length < maxQueueSize then
        a.mlqReadyQueue level ++ (call.offer level).toList
      else a.mlqReadyQueue level := by
  cases call with
  | get => exact absurd rfl other
  | put prio proc =>
    cases proc with
    | none => exact ⟨rfl, by simp [Sched.call, SchedCall.offer]⟩
    | some p => exact ⟨rfl, by rw [Sched.call, Sched.putProc_mlqReadyQueue, Sched.addProc_queue]; rfl⟩
  | add prio p => exact ⟨rfl, a.addProc_queue prio p level⟩

omit [DecidableEq ι] in
/-- `get_proc` moves the head of the level it names to the processes returned from that level. -/
private theorem getProc_queue (a : Sched ι) (level : Fin maxPrio) :
    (if a.getProc.1.currentPrio = level then a.getProc.2.toList else []) ++ a.getProc.1.mlqReadyQueue level =
      a.mlqReadyQueue level := by
  cases got : a.getProc with
  | mk t proc =>
    cases proc with
    | none =>
      rw [(Sched.getProc_none got).2.1, Option.toList_none, ite_self, List.nil_append]
    | some p =>
      obtain ⟨first, rest, queue, _, taken, _, named⟩ := Sched.getProc_first got
      dsimp only
      rw [taken, named, Function.update_apply]
      by_cases here : level = first
      · subst here
        rw [if_pos rfl, if_pos rfl, queue, Option.toList_some, List.singleton_append]
      · rw [if_neg here, if_neg (fun same => here (Fin.ext same.symm)), List.nil_append]

/-- A call keeps the order in which a level was given its processes. -/
theorem Fifo.step {h : Dispatch ι} (fifo : h.Fifo) (call : SchedCall ι) :
    ∃ after, h.step call = some after ∧ after.Fifo := by
  obtain ⟨a, refined, given⟩ := fifo
  have sizes : ∀ level, (h.sched.mlqReadyQueue level).size = (a.mlqReadyQueue level).length := by
    intro level
    rw [(refined.ready level).size, List.length_map]
  obtain ⟨t, called, left, named⟩ := refined.call call
  refine ⟨_, by simp only [Dispatch.step, called]; rfl, (a.call call).1, left, ?_⟩
  intro level
  dsimp only
  rw [sizes, given]
  by_cases get : call = .get
  · subst get
    have moved := getProc_queue a level
    have taken : t.currentPrio = a.getProc.1.currentPrio := named rfl
    simp only [SchedCall.offer, Option.toList_none, List.append_nil, ite_self, Sched.call, taken]
    split
    · rename_i here
      rw [if_pos here] at moved
      rw [List.append_assoc, moved]
    · rename_i elsewhere
      rw [if_neg elsewhere, List.nil_append] at moved
      rw [moved]
  · obtain ⟨nothing, queue⟩ := call_queue_of_ne_get a get level
    rw [nothing, queue, Option.toList_none, List.append_nil, ite_self]
    split
    · rw [List.append_assoc]
    · rfl

/-- Every sequence of calls runs, and keeps the order. -/
private theorem Fifo.calls {h : Dispatch ι} (fifo : h.Fifo) (calls : List (SchedCall ι)) :
    ∃ after, calls.foldlM Dispatch.step h = some after ∧ after.Fifo := by
  induction calls generalizing h with
  | nil => exact ⟨h, rfl, fifo⟩
  | cons call calls ih =>
    obtain ⟨now, stepped, fifo⟩ := fifo.step call
    obtain ⟨after, ran, fifo⟩ := ih fifo
    refine ⟨after, ?_, fifo⟩
    rw [List.foldlM_cons, stepped]
    exact ran

/-- What `get_mlq_proc` returns: nothing exactly when every level is empty, and else the first entry of
the smallest level that is not. -/
structure Serves (s : Mlq ι) : Prop where
  total : ∃ t proc, s.getMlqProc = some (t, proc)
  none_iff : ∀ t proc, s.getMlqProc = some (t, proc) →
    (proc = none ↔ ∀ level, (s.mlqReadyQueue level).empty)
  first : ∀ t p, s.getMlqProc = some (t, some p) →
    ∃ level : Fin maxPrio, t.currentPrio = level ∧ ¬(s.mlqReadyQueue level).empty ∧
      (s.mlqReadyQueue level).load 0 = some (some p) ∧
      ∀ smaller < level, (s.mlqReadyQueue smaller).empty

omit [DecidableEq ι] in
private theorem serves_of_refines {s : Mlq ι} {a : Sched ι} (refined : s.Refines a) : Serves s := by
  obtain ⟨after, got, left, named⟩ := refined.getMlqProc
  refine ⟨⟨after, _, got⟩, ?_, ?_⟩
  · intro t proc again
    have same := (Prod.mk.inj (Option.some.inj (got.symm.trans again))).2
    simp only [refined.empty_iff]
    constructor
    · intro nothing
      exact (Sched.getProc_none (Prod.ext rfl (same.trans nothing) : a.getProc = (a.getProc.1, none))).1
    · intro empty
      exact same.symm.trans (Sched.getProc_of_empty empty)
  · intro t p again
    obtain ⟨rfl, same⟩ := Prod.mk.inj (Option.some.inj (got.symm.trans again))
    obtain ⟨level, rest, queue, smaller, _, _, taken⟩ :=
      Sched.getProc_first (Prod.ext rfl same : a.getProc = (a.getProc.1, some p))
    refine ⟨level, named.trans taken, ?_, ?_, ?_⟩
    · rw [refined.empty_iff, queue]
      exact List.cons_ne_nil _ _
    · exact (refined.ready level).load 0 (some p) (by rw [queue]; rfl)
    · intro other lower
      exact (refined.empty_iff other).mpr (smaller other lower)

/-- After any sequence of calls `get_proc` serves the smallest level that is not empty. What it took from a
level is, in order, what the level was given but does not hold any more. -/
theorem strict_priority_fifo (s : Mlq ι) (calls : List (SchedCall ι)) :
    ∃ h, calls.foldlM step (start s) = some h ∧ Serves h.sched ∧ h.Fifo ∧
      ∀ level, h.returned level <+: h.appended level := by
  obtain ⟨h, ran, fifo⟩ := (start_fifo s).calls calls
  obtain ⟨a, refined, given⟩ := fifo
  refine ⟨h, ran, serves_of_refines refined, ⟨a, refined, given⟩, ?_⟩
  intro level
  exact ⟨a.mlqReadyQueue level, (given level).symm⟩

end Dispatch

namespace Mlq

variable {p q : Fin maxPrio} {s t : Mlq ι} {a : Sched ι} {n : ℕ}

/-- Calls from `s` to `t` during which level `q` always holds a process and each of the `n` processes
`get_proc` returns is one of level `p`. -/
inductive Burst (p q : Fin maxPrio) (s : Mlq ι) : ℕ → Mlq ι → Prop
  | start (ready : ¬(s.mlqReadyQueue q).empty) : Burst p q s 0 s
  | get {n : ℕ} {t after : Mlq ι} {proc : ι} (earlier : Burst p q s n t)
      (got : t.call .get = some (after, some proc)) (level : after.currentPrio = p)
      (ready : ¬(after.mlqReadyQueue q).empty) : Burst p q s (n + 1) after
  | other {n : ℕ} {t after : Mlq ι} {call : SchedCall ι} (earlier : Burst p q s n t)
      (called : t.call call = some (after, none)) (ready : ¬(after.mlqReadyQueue q).empty) :
      Burst p q s n after

/-- Level `p` is left after at most `MAX_PRIO - p` processes while level `q` has one. -/
def Budgeted (ι : Type) [DecidableEq ι] (p q : Fin maxPrio) : Prop :=
  ∀ (s : Mlq ι) (calls : List (SchedCall ι)) (h : Dispatch ι) (n : ℕ) (t : Mlq ι),
    calls.foldlM Dispatch.step (Dispatch.start s) = some h → Burst p q h.sched n t → n ≤ maxPrio - p

private theorem Burst.refines (burst : Burst p q s n t) (refined : s.Refines a) : ∃ b, t.Refines b := by
  induction burst with
  | start _ => exact ⟨a, refined⟩
  | get _ got _ _ ih =>
    obtain ⟨b, refined⟩ := ih
    obtain ⟨after, called, left, _⟩ := refined.call .get
    obtain ⟨rfl, _⟩ := Prod.mk.inj (Option.some.inj (called.symm.trans got))
    exact ⟨_, left⟩
  | @other _ _ _ call _ called' _ ih =>
    obtain ⟨b, refined⟩ := ih
    obtain ⟨after, called, left, _⟩ := refined.call call
    obtain ⟨rfl, _⟩ := Prod.mk.inj (Option.some.inj (called.symm.trans called'))
    exact ⟨_, left⟩

private theorem Burst.ready (burst : Burst p q s n t) : ¬(t.mlqReadyQueue q).empty := by
  cases burst with
  | start ready => exact ready
  | get _ _ _ ready => exact ready
  | other _ _ ready => exact ready

/-- A ready level of higher priority keeps `get_proc` away from level `p`. -/
private theorem Burst.eq_zero_of_lt (burst : Burst p q s n t) (refined : s.Refines a) (higher : q < p) : n = 0 := by
  induction burst with
  | start _ => rfl
  | get earlier got level _ _ =>
    obtain ⟨b, refined⟩ := earlier.refines refined
    obtain ⟨first, named, _, _, smaller⟩ := (Dispatch.serves_of_refines refined).first _ _ got
    have same : first = p := Fin.ext (named.symm.trans level)
    exact absurd (smaller q (same ▸ higher)) earlier.ready
  | other _ _ _ ih => exact ih

/-- Two levels hold one process each, and nothing else is ready or running. -/
def Pair (p q : Fin maxPrio) (x y : ι) (s : Mlq ι) : Prop :=
  ∃ a : Sched ι, s.Refines a ∧ a.runningList = [] ∧
    a.mlqReadyQueue = Function.update (Function.update (fun _ => []) p [x]) q [y]

private theorem exists_pair (s : Mlq ι) (other : p ≠ q) (x y : ι) :
    ∃ h, [SchedCall.add p x, SchedCall.add q y].foldlM Dispatch.step (Dispatch.start s) = some h ∧
      Pair p q x y h.sched := by
  obtain ⟨t, first, refined, _⟩ := s.initScheduler_refines.call (.add p x)
  obtain ⟨u, second, refined, _⟩ := refined.call (.add q y)
  refine ⟨_, by simp only [List.foldlM, Dispatch.step, Dispatch.start, first, Option.bind_eq_bind,
    Option.bind_some, Option.pure_def, second]; rfl, _, refined, by simp [Sched.call, Sched.init], ?_⟩
  funext level
  simp only [Sched.call, Sched.addProc_queue, Sched.init, Function.update_apply]
  by_cases atq : level = q
  · subst atq
    simp [Fin.val_ne_of_ne other]
    decide
  · by_cases atp : level = p
    · subst atp
      simp [other, Fin.val_ne_of_ne other.symm]
      decide
    · simp [atp, atq, Fin.val_ne_of_ne (Ne.symm atp), Fin.val_ne_of_ne (Ne.symm atq)]

/-- With one process each, the level of higher priority is served, and `put_proc` restores the pair. -/
private theorem Pair.round {x y : ι} (pair : Pair p q x y s) (lower : p < q) :
    ∃ t u, s.call .get = some (t, some x) ∧ t.currentPrio = p ∧ ¬(t.mlqReadyQueue q).empty ∧
      t.call (.put p (some x)) = some (u, none) ∧ Pair p q x y u := by
  obtain ⟨a, refined, idle, queues⟩ := pair
  have at_p : a.mlqReadyQueue p = [x] := by
    rw [queues, Function.update_of_ne (ne_of_lt lower), Function.update_self]
  have at_q : a.mlqReadyQueue q = [y] := by rw [queues, Function.update_self]
  obtain ⟨t, got, left, named⟩ := refined.call .get
  cases taken : a.getProc with
  | mk b proc =>
    simp only [Sched.call, taken] at got left named
    cases proc with
    | none => simp [(Sched.getProc_none taken).1 p] at at_p
    | some z =>
      obtain ⟨level, rest, queue, smaller, removed, running, at_level⟩ := Sched.getProc_first taken
      have here : level = p := by
        obtain before | here | after := lt_trichotomy level p
        · rw [queues, Function.update_of_ne (ne_of_lt (before.trans lower)),
            Function.update_of_ne (ne_of_lt before)] at queue
          cases queue
        · exact here
        · rw [smaller p after] at at_p
          cases at_p
      subst here
      obtain ⟨rfl, rfl⟩ := List.cons.inj (queue.symm.trans at_p)
      obtain ⟨u, put, restored, _⟩ := left.call (.put level (some z))
      refine ⟨t, u, got, (named trivial).trans at_level, ?_, put, _, restored, ?_, ?_⟩
      · rw [left.empty_iff, removed, Function.update_of_ne (ne_of_gt lower), at_q]
        exact List.cons_ne_nil _ _
      · simp [Sched.call, running, idle, enqueue, maxQueueSize]
      · funext other
        have put_queue := b.addProc_queue level z other
        rw [removed] at put_queue
        by_cases here : other = level
        · subst here
          have room : ([] : List ι).length < maxQueueSize := Nat.zero_lt_succ 49
          rw [Function.update_self, if_pos room, if_pos rfl] at put_queue
          rw [Sched.call, Sched.putProc_mlqReadyQueue, put_queue, ← queues, at_p]
          rfl
        · rw [Function.update_of_ne here, if_neg (Fin.val_ne_of_ne (Ne.symm here)), Option.toList_none,
            List.append_nil, ite_self, queues] at put_queue
          rw [Sched.call, Sched.putProc_mlqReadyQueue, put_queue]

/-- The higher of two ready levels is served any number of times in a row. -/
private theorem Pair.burst {x y : ι} (pair : Pair p q x y s) (lower : p < q) (n : ℕ) :
    ∃ t, Burst p q s n t ∧ Pair p q x y t := by
  induction n with
  | zero =>
    refine ⟨s, .start ?_, pair⟩
    obtain ⟨a, refined, _, queues⟩ := pair
    rw [refined.empty_iff, queues, Function.update_self]
    exact List.cons_ne_nil _ _
  | succ n ih =>
    obtain ⟨now, burst, pair⟩ := ih
    obtain ⟨t, u, got, level, ready, put, pair⟩ := pair.round lower
    refine ⟨u, (burst.get got level ready).other put ?_, pair⟩
    obtain ⟨a, refined, _, queues⟩ := pair
    rw [refined.empty_iff, queues, Function.update_self]
    exact List.cons_ne_nil _ _

/-- While a level of lower priority waits, no number of processes in a row is too many. -/
private theorem exists_burst (s : Mlq ι) (lower : p < q) (x y : ι) (n : ℕ) :
    ∃ calls h t, List.foldlM Dispatch.step (Dispatch.start s) calls = some h ∧ Burst p q h.sched n t := by
  obtain ⟨h, ran, pair⟩ := exists_pair s (ne_of_lt lower) x y
  obtain ⟨t, burst, _⟩ := pair.burst lower n
  exact ⟨_, h, t, ran, burst⟩

/-- The budget of a level holds exactly against the levels of higher priority: `get_mlq_proc` reads
neither `slot` nor `current_slot`. -/
theorem budgeted_iff_lt [Nontrivial ι] (other : p ≠ q) : Budgeted ι p q ↔ q < p := by
  constructor
  · intro budgeted
    by_contra higher
    have lower : p < q := lt_of_le_of_ne (not_lt.mp higher) other
    obtain ⟨x, y, _⟩ := exists_pair_ne ι
    obtain ⟨calls, h, t, ran, burst⟩ := exists_burst .static lower x y (maxPrio - p + 1)
    have few := budgeted _ calls h _ t ran burst
    omega
  · intro higher s calls h n t ran burst
    obtain ⟨after, again, a, refined, _⟩ := (Dispatch.start_fifo s).calls calls
    cases ran.symm.trans again
    rw [burst.eq_zero_of_lt refined higher]
    exact Nat.zero_le _

theorem budgeted_five_three : (⟨5, by decide⟩ : Fin maxPrio) ≠ ⟨3, by decide⟩ ∧
    (Budgeted ℕ ⟨5, by decide⟩ ⟨3, by decide⟩ ↔ (⟨3, by decide⟩ : Fin maxPrio) < ⟨5, by decide⟩) :=
  ⟨by decide, budgeted_iff_lt (by decide)⟩

/-- Level `0` is served 141 times in a row while a process of level `1` waits. -/
theorem not_budgeted : ¬∀ p q : Fin maxPrio, p ≠ q → Budgeted ℕ p q := by
  intro budgeted
  have lower : (⟨0, by decide⟩ : Fin maxPrio) < ⟨1, by decide⟩ := by decide
  obtain ⟨calls, h, t, ran, burst⟩ := exists_burst .static lower 7 8 141
  have few := budgeted ⟨0, by decide⟩ ⟨1, by decide⟩ (by decide) .static calls h 141 t ran burst
  revert few
  decide

end Mlq

end SimpleOS.Model
