import Mathlib.Data.List.FinRange
import Mathlib.Logic.Function.Basic

/-! # The multi-level queue scheduler

`queue.c` and the `MLQ_SCHED` part of `sched.c`. A queue is the list `proc[0..size)`, and one call of
`get_proc`, `put_proc` or `add_proc` is one function on the whole state. The priority of a process is
an argument, since it is read from its PCB.
-/

namespace SimpleOS.Model

variable {ι : Type} [DecidableEq ι]

def maxQueueSize : ℕ := 50

def maxPrio : ℕ := 140

/-- `enqueue`: a full queue stays as it is. -/
def enqueue (q : List ι) (proc : ι) : List ι :=
  if maxQueueSize ≤ q.length then q else q ++ [proc]

/-- `dequeue`. -/
def dequeue : List ι → List ι × Option ι
  | [] => ([], none)
  | proc :: q => (q, some proc)

/-- `purgequeue` removes the first occurrence. -/
def purgequeue (q : List ι) (proc : ι) : List ι := q.erase proc

/-- The static variables of `sched.c` that its functions use. -/
structure Sched (ι : Type) where
  mlqReadyQueue : Fin maxPrio → List ι
  runningList : List ι
  currentPrio : ℕ
  currentSlot : ℕ

namespace Sched

/-- `init_scheduler`. -/
def init : Sched ι := ⟨fun _ => [], [], 0, 0⟩

/-- Replace the queue of one level. -/
def setQueue (s : Sched ι) (prio : Fin maxPrio) (q : List ι) : Sched ι :=
  { s with mlqReadyQueue := Function.update s.mlqReadyQueue prio q }

/-- The first level with a process. -/
def firstReady (s : Sched ι) : Option (Fin maxPrio) :=
  (List.finRange maxPrio).find? fun prio => !(s.mlqReadyQueue prio).isEmpty

/-- The loop of `get_mlq_proc` over the levels. -/
def takeReady (s : Sched ι) : Sched ι × Option ι :=
  match s.firstReady with
  | none => (s, none)
  | some prio =>
    let (q, proc) := dequeue (s.mlqReadyQueue prio)
    ({ s.setQueue prio q with currentPrio := prio, currentSlot := 1 }, proc)

/-- `get_proc`. -/
def getProc (s : Sched ι) : Sched ι × Option ι :=
  match s.takeReady with
  | (s, some proc) => ({ s with runningList := enqueue s.runningList proc }, some proc)
  | (s, none) => ({ s with currentPrio := 0, currentSlot := 0 }, none)

/-- `add_proc`: a process whose priority has no level is left out. -/
def addProc (s : Sched ι) (prio : ℕ) (proc : ι) : Sched ι :=
  if bound : prio < maxPrio then s.setQueue ⟨prio, bound⟩ (enqueue (s.mlqReadyQueue ⟨prio, bound⟩) proc)
  else s

/-- `put_proc`. -/
def putProc (s : Sched ι) (prio : ℕ) (proc : ι) : Sched ι :=
  { s with runningList := purgequeue s.runningList proc }.addProc prio proc

end Sched

end SimpleOS.Model
