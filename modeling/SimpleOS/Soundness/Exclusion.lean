import SimpleOS.Model.SchedLocks
import SimpleOS.Soundness.Dispatch

/-! # Sections of `sched.c` that overlap

`get_mlq_proc` takes `mlq_lock`, the other two functions take `queue_lock`. Two sections under one mutex
exclude each other; two under different mutexes do not.
-/

namespace SimpleOS.Model

open Lib

variable {τ ι : Type} [DecidableEq τ] [DecidableEq ι]

/-- `put_proc` and `add_proc` of a process. -/
def SchedCall.Gives : SchedCall ι → Prop
  | .get => False
  | .put _ proc => proc.isSome
  | .add _ _ => True

omit [DecidableEq ι] in
private theorem SchedCall.mutex_cases {call : SchedCall ι} {mutex : Mutex} (takes : call.mutex = some mutex) :
    (call = .get ∧ mutex = .mlqLock) ∨ (call.Gives ∧ mutex = .queueLock) := by
  cases call with
  | get => exact .inl ⟨rfl, (Option.some.inj takes).symm⟩
  | put prio proc =>
    cases proc with
    | none => cases takes
    | some p => exact .inr ⟨rfl, (Option.some.inj takes).symm⟩
  | add prio p => exact .inr ⟨trivial, (Option.some.inj takes).symm⟩

omit [DecidableEq ι] in
private theorem SchedCall.Gives.mutex {call : SchedCall ι} (gives : call.Gives) : call.mutex = some .queueLock := by
  cases call with
  | get => exact gives.elim
  | put prio proc =>
    cases proc with
    | none => cases gives
    | some p => rfl
  | add prio p => rfl

namespace Threads

/-- A thread is between `lock` and `unlock`. -/
def Inside (s : Threads τ ι) (i : τ) (call : SchedCall ι) : Prop :=
  s.phase i = .entered call ∨ s.phase i = .executed call

/-- No two threads are inside a section at once. -/
def Exclusive (s : Threads τ ι) : Prop :=
  ∀ i j call other, i ≠ j → ¬(s.Inside i call ∧ s.Inside j other)

/-- Runs of the threads, whichever of them moves next. -/
def Runs (s : Threads τ ι) : List τ → Threads τ ι → Prop :=
  Run (fun now i after => now.step i = some after) s

variable {s t : Threads τ ι} {i j : τ} {calls : τ → List (SchedCall ι)}

/-- What one step of a thread does. -/
private theorem step_cases (stepped : s.step i = some t) :
    (∃ call rest, s.phase i = .outside ∧ s.calls i = call :: rest ∧ call.mutex = none ∧
      t = { s with calls := Function.update s.calls i rest }) ∨
    (∃ call rest mutex, s.phase i = .outside ∧ s.calls i = call :: rest ∧ call.mutex = some mutex ∧
      s.holder mutex = none ∧ t = { s with
        holder := Function.update s.holder mutex (some i)
        phase := Function.update s.phase i (.entered call)
        calls := Function.update s.calls i rest }) ∨
    (∃ call sched proc, s.phase i = .entered call ∧ s.sched.call call = some (sched, proc) ∧
      t = { s with sched, phase := Function.update s.phase i (.executed call) }) ∨
    ∃ call mutex, s.phase i = .executed call ∧ call.mutex = some mutex ∧ t = { s with
      holder := Function.update s.holder mutex none
      phase := Function.update s.phase i .outside } := by
  simp only [step] at stepped
  split at stepped
  · rename_i outside
    split at stepped
    · cases stepped
    · rename_i call rest queue
      split at stepped
      · rename_i free
        cases stepped
        exact .inl ⟨call, rest, outside, queue, free, rfl⟩
      · rename_i mutex takes
        split_ifs at stepped with free
        cases stepped
        exact .inr (.inl ⟨call, rest, mutex, outside, queue, takes, free, rfl⟩)
  · rename_i call entered
    obtain ⟨⟨sched, proc⟩, ran, rest⟩ := Option.bind_eq_some_iff.mp stepped
    cases rest
    exact .inr (.inr (.inl ⟨call, sched, proc, entered, ran, rfl⟩))
  · rename_i call executed
    split at stepped
    · cases stepped
    · rename_i mutex takes
      cases stepped
      exact .inr (.inr (.inr ⟨call, mutex, executed, takes, rfl⟩))

/-- A thread inside a section makes one of its calls and holds the mutex of that call. -/
structure Locked (calls : τ → List (SchedCall ι)) (s : Threads τ ι) : Prop where
  inside : ∀ i call, s.Inside i call → call ∈ calls i ∧ ∃ mutex, call.mutex = some mutex ∧ s.holder mutex = some i
  left : ∀ i, ∀ call ∈ s.calls i, call ∈ calls i

omit [DecidableEq τ] [DecidableEq ι] in
private theorem start_locked (s : Mlq ι) (calls : τ → List (SchedCall ι)) : (start s calls).Locked calls :=
  ⟨fun _ _ inside => by simp [Inside, start] at inside, fun _ _ member => member⟩

omit [DecidableEq ι] in
private theorem Locked.tail (locked : s.Locked calls) {call : SchedCall ι} {rest : List (SchedCall ι)}
    (queue : s.calls i = call :: rest) (j : τ) (other : SchedCall ι)
    (member : other ∈ Function.update s.calls i rest j) : other ∈ calls j := by
  apply locked.left
  by_cases here : j = i
  · subst here
    rw [Function.update_self] at member
    rw [queue]
    exact List.mem_cons_of_mem _ member
  · rwa [Function.update_of_ne here] at member

theorem Locked.step (locked : s.Locked calls) (stepped : s.step i = some t) : t.Locked calls := by
  obtain ⟨call, rest, outside, queue, _, rfl⟩ | ⟨call, rest, mutex, outside, queue, takes, free, rfl⟩ |
    ⟨call, sched, proc, entered, _, rfl⟩ | ⟨call, mutex, executed, takes, rfl⟩ := step_cases stepped
  · exact ⟨locked.inside, locked.tail queue⟩
  · refine ⟨?_, locked.tail queue⟩
    intro j other inside
    by_cases here : j = i
    · subst here
      have same : other = call := by simpa [Inside, eq_comm] using inside
      subst same
      exact ⟨locked.left j other (queue ▸ List.mem_cons_self), mutex, takes, Function.update_self ..⟩
    · obtain ⟨member, held, wants, holds⟩ := locked.inside j other (by simpa [Inside, here] using inside)
      refine ⟨member, held, wants, ?_⟩
      have apart : held ≠ mutex := by
        rintro rfl
        rw [free] at holds
        cases holds
      exact (Function.update_of_ne apart ..).trans holds
  · refine ⟨?_, locked.left⟩
    intro j other inside
    by_cases here : j = i
    · subst here
      have same : other = call := by simpa [Inside, eq_comm] using inside
      subst same
      exact locked.inside j other (.inl entered)
    · exact locked.inside j other (by simpa [Inside, here] using inside)
  · refine ⟨?_, locked.left⟩
    intro j other inside
    by_cases here : j = i
    · subst here
      simp [Inside] at inside
    · obtain ⟨member, held, wants, holds⟩ := locked.inside j other (by simpa [Inside, here] using inside)
      obtain ⟨_, own, owns, held_own⟩ := locked.inside i call (.inr executed)
      refine ⟨member, held, wants, ?_⟩
      have apart : held ≠ mutex := by
        rintro rfl
        cases owns.symm.trans takes
        exact here (Option.some.inj (holds.symm.trans held_own))
      exact (Function.update_of_ne apart ..).trans holds

private theorem Runs.locked {trace : List τ} {first : Mlq ι} (run : (start first calls).Runs trace s) :
    s.Locked calls :=
  Run.keeps run (start_locked first calls) fun _ _ _ locked stepped => locked.step stepped

omit [DecidableEq τ] [DecidableEq ι] in
/-- Threads that hold different mutexes are the only ones that can be inside at once. -/
private theorem Locked.exclusive (locked : s.Locked calls)
    (apart : ∀ i j, i ≠ j → .get ∈ calls i → ∀ call ∈ calls j, ¬call.Gives) : s.Exclusive := by
  rintro i j call other distinct ⟨here, there⟩
  obtain ⟨member, mutex, takes, holds⟩ := locked.inside i call here
  obtain ⟨member', mutex', takes', holds'⟩ := locked.inside j other there
  have unequal : mutex ≠ mutex' := by
    rintro rfl
    exact distinct (Option.some.inj (holds.symm.trans holds'))
  obtain ⟨rfl, rfl⟩ | ⟨gives, rfl⟩ := SchedCall.mutex_cases takes <;>
    obtain ⟨rfl, rfl⟩ | ⟨gives', rfl⟩ := SchedCall.mutex_cases takes'
  · exact unequal rfl
  · exact apart i j distinct member other member' gives'
  · exact apart j i distinct.symm member' call member gives
  · exact unequal rfl

/-- All mutexes are free and the queues are in order. -/
structure Quiet (s : Threads τ ι) : Prop where
  holder : s.holder = fun _ => none
  phase : s.phase = fun _ => .outside
  refined : ∃ a, s.sched.Refines a

/-- Alone, a thread makes its next call and is outside again. -/
private theorem Quiet.perform (quiet : s.Quiet) {call : SchedCall ι} {rest : List (SchedCall ι)}
    (queue : s.calls i = call :: rest) :
    ∃ trace t, s.Runs trace t ∧ t.Quiet ∧ t.calls = Function.update s.calls i rest := by
  obtain ⟨a, refined⟩ := quiet.refined
  cases takes : call.mutex with
  | none =>
    refine ⟨[i], { s with calls := Function.update s.calls i rest }, .one ?_,
      ⟨quiet.holder, quiet.phase, a, refined⟩, rfl⟩
    simp [step, quiet.phase, queue, takes]
  | some mutex =>
    obtain ⟨sched, ran, left, _⟩ := refined.call call
    let entered : Threads τ ι := { s with
      holder := Function.update s.holder mutex (some i)
      phase := Function.update s.phase i (.entered call)
      calls := Function.update s.calls i rest }
    let executed : Threads τ ι := { entered with sched, phase := Function.update entered.phase i (.executed call) }
    have first : s.step i = some entered := by simp [step, quiet.phase, quiet.holder, queue, takes, entered]
    have second : entered.step i = some executed := by simp [step, entered, ran, executed]
    have third : executed.step i = some { executed with
        holder := Function.update executed.holder mutex none
        phase := Function.update executed.phase i .outside } := by simp [step, executed, takes]
    refine ⟨_, _, ((Run.start.next first).next second).next third, ⟨?_, ?_, _, left⟩, rfl⟩
    · simp only [executed, entered, quiet.holder, Function.update_idem]
      exact Function.update_eq_self _ _
    · simp only [executed, entered, quiet.phase, Function.update_idem]
      exact Function.update_eq_self _ _

/-- Alone, a thread makes its calls up to any one of them. -/
private theorem Quiet.reaches (quiet : s.Quiet) {before rest : List (SchedCall ι)}
    (queue : s.calls i = before ++ rest) :
    ∃ trace t, s.Runs trace t ∧ t.Quiet ∧ t.calls = Function.update s.calls i rest := by
  induction before generalizing s with
  | nil =>
    refine ⟨[], s, .start, quiet, ?_⟩
    rw [List.nil_append] at queue
    rw [← queue, Function.update_eq_self]
  | cons call before ih =>
    rw [List.cons_append] at queue
    obtain ⟨first, now, ran, quiet, left⟩ := quiet.perform queue
    obtain ⟨later, t, ran', quiet, left'⟩ := ih quiet (by rw [left, Function.update_self])
    refine ⟨_, t, ran.trans ran', quiet, ?_⟩
    rw [left', left, Function.update_idem]

/-- A thread about to call `get_proc` and one about to give a process can both enter. -/
private theorem Quiet.overlap (quiet : s.Quiet) (distinct : i ≠ j) {call : SchedCall ι}
    {rest rest' : List (SchedCall ι)} (gets : s.calls i = .get :: rest) (gives : s.calls j = call :: rest')
    (given : call.Gives) : ∃ trace t, s.Runs trace t ∧ ¬t.Exclusive := by
  let inside : Threads τ ι := { s with
    holder := Function.update s.holder .mlqLock (some i)
    phase := Function.update s.phase i (.entered .get)
    calls := Function.update s.calls i rest }
  let both : Threads τ ι := { inside with
    holder := Function.update inside.holder .queueLock (some j)
    phase := Function.update inside.phase j (.entered call)
    calls := Function.update inside.calls j rest' }
  have first : s.step i = some inside := by
    simp [step, quiet.phase, quiet.holder, gets, SchedCall.mutex, inside]
  have second : inside.step j = some both := by
    simp [step, inside, quiet.phase, quiet.holder, distinct.symm, gives, given.mutex, both]
  refine ⟨_, both, (Run.start.next first).next second, ?_⟩
  intro exclusive
  refine exclusive i j .get call distinct ⟨.inl ?_, .inl ?_⟩
  · simp [both, inside, distinct]
  · simp [both]

/-- The sections exclude each other in every run exactly when no thread gives a process to the scheduler
while another one calls `get_proc`. -/
theorem exclusive_iff (first : Mlq ι) (calls : τ → List (SchedCall ι)) :
    (∀ trace s, (start first calls).Runs trace s → s.Exclusive) ↔
      ∀ i j, i ≠ j → .get ∈ calls i → ∀ call ∈ calls j, ¬call.Gives := by
  constructor
  · intro exclusive i j distinct gets call member gives
    have quiet : (start first calls).Quiet := ⟨rfl, rfl, _, first.initScheduler_refines⟩
    obtain ⟨before, rest, split⟩ := List.append_of_mem gets
    obtain ⟨before', rest', split'⟩ := List.append_of_mem member
    obtain ⟨_, now, ran, quiet, left⟩ := quiet.reaches (i := i) split
    have queue' : now.calls j = before' ++ call :: rest' := by
      rw [left, Function.update_of_ne distinct.symm]
      exact split'
    obtain ⟨_, both, ran', quiet, left'⟩ := quiet.reaches queue'
    have next : both.calls i = .get :: rest := by
      rw [left', Function.update_of_ne distinct, left, Function.update_self]
    have next' : both.calls j = call :: rest' := by rw [left', Function.update_self]
    obtain ⟨_, t, overlap, inside⟩ := quiet.overlap distinct next next' gives
    exact inside (exclusive _ t ((ran.trans ran').trans overlap))
  · intro apart trace s run
    exact run.locked.exclusive apart

/-- One thread dequeues while another one appends. -/
theorem get_and_add_overlap :
    ¬∀ trace s, (start .static fun thread : Bool => if thread then [.get] else [.add 0 7]).Runs trace s →
      s.Exclusive := by
  intro exclusive
  have quiet : (start .static fun thread : Bool =>
      if thread then [.get] else [SchedCall.add 0 7]).Quiet := ⟨rfl, rfl, _, Mlq.static.initScheduler_refines⟩
  obtain ⟨trace, t, overlap, inside⟩ :=
    quiet.overlap (i := true) (j := false) (by decide) rfl rfl (by trivial)
  exact inside (exclusive trace t overlap)

end Threads

end SimpleOS.Model
