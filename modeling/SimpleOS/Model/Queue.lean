import SimpleOS.Model.Sched

/-! # The scheduler over its arrays

`queue.c` on the array of a `queue_t`, and the `MLQ_SCHED` functions of `sched.c` over such queues.
A function has no result when it would access an index outside `proc`. `Sched` is the same scheduler
over lists.
-/

namespace SimpleOS.Model

variable {ι : Type}

/-- `queue_t`: PCB pointers, `none` for `NULL`, and the number of them in use. -/
structure Queue (ι : Type) where
  proc : Vector (Option ι) maxQueueSize
  size : ℕ
deriving DecidableEq

namespace Queue

/-- `empty`. -/
def empty (q : Queue ι) : Bool := q.size == 0

/-- Read `q->proc[i]`. -/
def load (q : Queue ι) (i : ℕ) : Option (Option ι) := q.proc[i]?

/-- Assign `q->proc[i]`. -/
def store (q : Queue ι) (i : ℕ) (entry : Option ι) : Option (Queue ι) :=
  if bound : i < maxQueueSize then some { q with proc := q.proc.set i entry } else none

/-- `enqueue`. -/
def enqueue (q : Queue ι) (proc : Option ι) : Option (Queue ι) := do
  if proc.isNone then return q
  if maxQueueSize ≤ q.size then return q
  let q ← q.store q.size proc
  return { q with size := q.size + 1 }

/-- The loop that moves the next `count` entries after `i` down by one place. -/
def shift (q : Queue ι) (i : ℕ) : ℕ → Option (Queue ι)
  | 0 => some q
  | count + 1 => do
    let next ← q.load (i + 1)
    let q ← q.store i next
    q.shift (i + 1) count

/-- `dequeue`. -/
def dequeue (q : Queue ι) : Option (Queue ι × Option ι) := do
  if q.empty then return (q, none)
  let proc ← q.load 0
  let q ← q.shift 0 (q.size - 1)
  return ({ q with size := q.size - 1 }, proc)

variable [DecidableEq ι]

/-- The search of `purgequeue` from index `i`, with `count` entries to go. -/
def purgeFrom (q : Queue ι) (proc : Option ι) (i : ℕ) : ℕ → Option (Queue ι × Option ι)
  | 0 => some (q, none)
  | count + 1 => do
    let entry ← q.load i
    if entry = proc then
      let q ← q.shift i (q.size - 1 - i)
      let q ← { q with size := q.size - 1 }.store (q.size - 1) none
      return (q, entry)
    else q.purgeFrom proc (i + 1) count

/-- `purgequeue`. -/
def purgequeue (q : Queue ι) (proc : Option ι) : Option (Queue ι × Option ι) :=
  if q.empty || proc.isNone then some (q, none) else q.purgeFrom proc 0 q.size

end Queue

/-- The static variables of `sched.c` under `MLQ_SCHED`. -/
structure Mlq (ι : Type) where
  mlqReadyQueue : Fin maxPrio → Queue ι
  runningList : Queue ι
  slot : Fin maxPrio → ℕ
  currentPrio : ℕ
  currentSlot : ℕ

namespace Mlq

/-- The variables at the start of the program. -/
def static : Mlq ι := ⟨fun _ => ⟨Vector.replicate _ none, 0⟩, ⟨Vector.replicate _ none, 0⟩, fun _ => 0, 0, 0⟩

/-- `init_scheduler`, on whatever the variables hold before it. -/
def initScheduler (s : Mlq ι) : Mlq ι :=
  { s with
    mlqReadyQueue := fun prio => { s.mlqReadyQueue prio with size := 0 }
    slot := fun prio => maxPrio - prio
    runningList := { s.runningList with size := 0 } }

/-- Replace the queue of one level. -/
def setQueue (s : Mlq ι) (prio : Fin maxPrio) (q : Queue ι) : Mlq ι :=
  { s with mlqReadyQueue := Function.update s.mlqReadyQueue prio q }

/-- The loop of `get_mlq_proc` over the levels that remain. -/
def takeReady (s : Mlq ι) : List (Fin maxPrio) → Option (Mlq ι × Option ι)
  | [] => some (s, none)
  | prio :: levels =>
    if (s.mlqReadyQueue prio).empty then s.takeReady levels
    else do
      let (q, proc) ← (s.mlqReadyQueue prio).dequeue
      return ({ s.setQueue prio q with currentPrio := prio, currentSlot := 1 }, proc)

/-- `get_mlq_proc`. -/
def getMlqProc (s : Mlq ι) : Option (Mlq ι × Option ι) := do
  let (s, proc) ← s.takeReady (List.finRange maxPrio)
  if proc.isSome then
    let running ← s.runningList.enqueue proc
    return ({ s with runningList := running }, proc)
  else return ({ s with currentPrio := 0, currentSlot := 0 }, proc)

/-- `add_mlq_proc` on a process and its `prio`. -/
def addMlqProc (s : Mlq ι) (prio : ℕ) (proc : ι) : Option (Mlq ι) := do
  if bound : prio < maxPrio then
    let q ← (s.mlqReadyQueue ⟨prio, bound⟩).enqueue (some proc)
    return s.setQueue ⟨prio, bound⟩ q
  else return s

/-- `put_mlq_proc` on a pointer and the `prio` behind it. -/
def putMlqProc [DecidableEq ι] (s : Mlq ι) (prio : ℕ) : Option ι → Option (Mlq ι)
  | none => some s
  | some proc => do
    let (running, _) ← s.runningList.purgequeue (some proc)
    { s with runningList := running }.addMlqProc prio proc

end Mlq

/-- A call of `sched.c`. A process comes with the `prio` of its PCB. -/
inductive SchedCall (ι : Type)
  | get
  | put (prio : ℕ) (proc : Option ι)
  | add (prio : ℕ) (proc : ι)

/-- One call, with the process it returns. -/
def Mlq.call [DecidableEq ι] (s : Mlq ι) : SchedCall ι → Option (Mlq ι × Option ι)
  | .get => s.getMlqProc
  | .put prio proc => do return (← s.putMlqProc prio proc, none)
  | .add prio proc => do return (← s.addMlqProc prio proc, none)

end SimpleOS.Model
