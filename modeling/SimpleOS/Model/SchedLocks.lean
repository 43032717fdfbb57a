import SimpleOS.Model.Queue

/-! # Threads that call the scheduler

Each thread makes its calls one after another. A call takes the mutex its function names, executes its
section and releases the mutex; `put_mlq_proc` returns before any mutex when its process is `NULL`.
-/

namespace SimpleOS.Model

variable {τ ι : Type}

/-- The mutexes of `sched.c`. -/
inductive Mutex
  | queueLock
  | mlqLock
deriving DecidableEq

/-- The mutex a call takes. -/
def SchedCall.mutex : SchedCall ι → Option Mutex
  | .get => some .mlqLock
  | .put _ none => none
  | .put _ (some _) => some .queueLock
  | .add _ _ => some .queueLock

/-- Where a thread is: outside the sections, or between `lock` and `unlock` of a call, with the section
still to come or already executed. -/
inductive Phase (ι : Type)
  | outside
  | entered (call : SchedCall ι)
  | executed (call : SchedCall ι)

/-- The scheduler, the thread that holds each mutex, and what each thread does and has still to call. -/
structure Threads (τ ι : Type) where
  sched : Mlq ι
  holder : Mutex → Option τ
  phase : τ → Phase ι
  calls : τ → List (SchedCall ι)

namespace Threads

/-- After `init_scheduler`, no thread has made a call. -/
def start (s : Mlq ι) (calls : τ → List (SchedCall ι)) : Threads τ ι :=
  ⟨s.initScheduler, fun _ => none, fun _ => .outside, calls⟩

variable [DecidableEq τ] [DecidableEq ι]

/-- The next step of a thread; it has none while the mutex it wants is held, or at its end. -/
def step (s : Threads τ ι) (i : τ) : Option (Threads τ ι) :=
  match s.phase i with
  | .outside =>
    match s.calls i with
    | [] => none
    | call :: rest =>
      match call.mutex with
      | none => some { s with calls := Function.update s.calls i rest }
      | some mutex =>
        if s.holder mutex = none then
          some { s with
            holder := Function.update s.holder mutex (some i)
            phase := Function.update s.phase i (.entered call)
            calls := Function.update s.calls i rest }
        else none
  | .entered call => do
    let (sched, _) ← s.sched.call call
    return { s with sched, phase := Function.update s.phase i (.executed call) }
  | .executed call =>
    match call.mutex with
    | none => none
    | some mutex => some { s with
        holder := Function.update s.holder mutex none
        phase := Function.update s.phase i .outside }

end Threads

end SimpleOS.Model
