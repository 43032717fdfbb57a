import SimpleOS.Model.Cpu
import SimpleOS.Model.Sched
import SimpleOS.Model.Timer

/-! # The threads of the simulator

`os.c`: `cpu_routine`, `ld_routine` and `main` over the scheduler, the timer and the memory. A step is
one call of `get_proc`, `put_proc`, `add_proc` or `run`, one access to `done` or `_time`, or one locked
section of the timer; local computation goes with the step before it. `attach_event` puts a device in
front of `dev_list`, so the loader comes first there and CPU 0 last.

A call of `run` that leaves `proc->regs` is undefined behaviour and has no step.
-/

namespace SimpleOS.Model

open Lib

/-- What `read_config` and `load` have read, and the memory they found. -/
structure Config (N : ℕ) where
  timeSlot : Int
  startTime : Fin N → ℕ
  prio : Fin N → BitVec 64
  text : Fin N → List Inst
  heap : Fin N → Malloc
  mram : Memphy
  mswp : Memphy

/-- `proc->prio`: the priority of a process narrowed to 32 bits. -/
def Config.level {N : ℕ} (cfg : Config N) (p : Fin N) : ℕ := ((cfg.prio p).setWidth 32).toNat

/-- Processes that may start at once, with a time slot of 1, in a zeroed memory of `n` frames. -/
def Config.atOnce {N : ℕ} (n : ℕ) (text : Fin N → List Inst) (prio : BitVec 64) : Config N where
  timeSlot := 1
  startTime _ := 0
  prio _ := prio
  text := text
  heap _ := ⟨fun _ => 0, [], fun _ => 0⟩
  mram := initMemphy n fun _ => 0
  mswp := initMemphy n fun _ => 0

/-- Where a CPU is in the loop of `cpu_routine`, with its variable `proc`. After `fetch` comes the
`get_proc` of the branches that give a process up. -/
inductive CpuLoc (ι : Type)
  | top (proc : Option ι)
  | fetch
  | recheck (proc : Option ι)
  | run (proc : ι)
  | slot (proc : Option ι)
  | leaving
  | stopped
deriving DecidableEq, Repr

/-- The process a CPU holds. -/
def CpuLoc.proc {ι : Type} : CpuLoc ι → Option ι
  | .top proc => proc
  | .fetch => none
  | .recheck proc => proc
  | .run proc => some proc
  | .slot proc => proc
  | .leaving => none
  | .stopped => none

/-- The variables of `cpu_routine`. `runTimes` records `_time` at each call of `run`. -/
structure Cpu (ι : Type) where
  loc : CpuLoc ι
  timeLeft : Int
  runTimes : List ℕ

/-- Where the loader is in `ld_routine`. -/
inductive LoaderLoc
  | check | adding | slot | leaving | finished
deriving DecidableEq, Repr

/-- The variables of `ld_routine`. -/
structure Loader where
  loc : LoaderLoc
  i : ℕ

/-- The whole simulator with `c` CPUs and `N` processes. `freed` are the processes `cpu_routine` has
freed, and `executed` records the instructions `run` has executed for each process. -/
structure Os (c N : ℕ) where
  timer : Timer.State (c + 1)
  sched : Sched (Fin N)
  mem : Machine (Fin N)
  done : Bool
  cpus : Fin c → Cpu (Fin N)
  loader : Loader
  freed : Fin N → Bool
  executed : Fin N → List Inst

/-- The steps of the threads. Wakeups are spurious ones; `stop` is `stop_timer` in `main`. -/
inductive Label (c : ℕ)
  | timer
  | timerWake
  | cpu (i : Fin c)
  | cpuWake (i : Fin c)
  | loader
  | loaderWake
  | stop
deriving DecidableEq, Repr

namespace Os

variable {c N : ℕ}

/-- The position of CPU `i` in `dev_list`. -/
def cpuDev (i : Fin c) : Fin (c + 1) := i.castSucc.rev

/-- The position of the loader in `dev_list`. -/
def loaderDev : Fin (c + 1) := (Fin.last c).rev

/-- The state in which `main` has started all threads. Processes are numbered as in the configuration,
and `load` gives them the pids from 1 on. -/
def init (cfg : Config N) : Os c N where
  timer := .init (c + 1)
  sched := .init
  mem :=
    { procs p := loadProc (cfg.heap p) (BitVec.ofNat 32 (p + 1)) (cfg.text p) (cfg.level p)
      mram := cfg.mram
      mswp := cfg.mswp }
  done := false
  cpus _ := ⟨.top none, 0, []⟩
  loader := ⟨.check, 0⟩
  freed _ := false
  executed _ := []

/-- Replace one CPU. -/
def setCpu (s : Os c N) (i : Fin c) (cpu : Cpu (Fin N)) : Os c N :=
  { s with cpus := Function.update s.cpus i cpu }

/-- `proc->pc == proc->code->size`. -/
def Finished (s : Os c N) (p : Fin N) : Prop := (s.mem.procs p).pc = (s.mem.procs p).text.length

instance (s : Os c N) (p : Fin N) : Decidable (s.Finished p) := Nat.decEq _ _

/-- The next step of CPU `i`. -/
def cpuStep (cfg : Config N) (env : Env) (s : Os c N) (i : Fin c) : Option (Os c N) :=
  let cpu := s.cpus i
  match cpu.loc with
  | .top none =>
    match s.sched.getProc with
    | (sched, some p) => some ({ s with sched }.setCpu i { cpu with loc := .recheck (some p) })
    | (sched, none) => some ({ s with sched }.setCpu i { cpu with loc := .slot none })
  | .top (some p) =>
    if s.Finished p then
      let freed := Function.update s.freed p true
      some ({ s with freed }.setCpu i { cpu with loc := .fetch, timeLeft := 0 })
    else if cpu.timeLeft = 0 then
      let sched := s.sched.putProc (s.mem.procs p).prio p
      some ({ s with sched }.setCpu i { cpu with loc := .fetch })
    else some (s.setCpu i { cpu with loc := .recheck (some p) })
  | .fetch =>
    let (sched, proc) := s.sched.getProc
    some ({ s with sched }.setCpu i { cpu with loc := .recheck proc })
  | .recheck none =>
    if s.done then some (s.setCpu i { cpu with loc := .leaving })
    else some (s.setCpu i { cpu with loc := .slot none })
  | .recheck (some p) =>
    let timeLeft := if cpu.timeLeft = 0 then cfg.timeSlot else cpu.timeLeft
    some (s.setCpu i { cpu with loc := .run p, timeLeft })
  | .run p =>
    match s.mem.run env s.sched.runningList p with
    | .error _ => none
    | .ok (mem, _) =>
      let ins := (s.mem.procs p).text[(s.mem.procs p).pc]?
      let executed := Function.update s.executed p (s.executed p ++ ins.toList)
      let runTimes := cpu.runTimes ++ [s.timer.time]
      some ({ s with mem, executed }.setCpu i ⟨.slot (some p), cpu.timeLeft - 1, runTimes⟩)
  | .slot proc =>
    (s.timer.nextSlot (cpuDev i)).map fun timer =>
      let returned := (timer.devs (cpuDev i)).phase = .working
      { s with timer }.setCpu i { cpu with loc := if returned then .top proc else .slot proc }
  | .leaving =>
    some ({ s with timer := s.timer.detach (cpuDev i) }.setCpu i { cpu with loc := .stopped })
  | .stopped => none

/-- The next step of the loader. -/
def loaderStep (cfg : Config N) (s : Os c N) : Option (Os c N) :=
  let loader := s.loader
  match loader.loc with
  | .check =>
    if bound : loader.i < N then
      let loc := if s.timer.time < cfg.startTime ⟨loader.i, bound⟩ then .slot else .adding
      some { s with loader := { loader with loc } }
    else some { s with done := true, loader := { loader with loc := .leaving } }
  | .adding =>
    if bound : loader.i < N then
      let p : Fin N := ⟨loader.i, bound⟩
      some { s with sched := s.sched.addProc (s.mem.procs p).prio p, loader := ⟨.slot, loader.i + 1⟩ }
    else none
  | .slot =>
    (s.timer.nextSlot loaderDev).map fun timer =>
      let returned := (timer.devs loaderDev).phase = .working
      { s with timer, loader := { loader with loc := if returned then .check else .slot } }
  | .leaving =>
    some { s with timer := s.timer.detach loaderDev, loader := { loader with loc := .finished } }
  | .finished => none

/-- One step of one thread. `main` calls `stop_timer` when it has joined all CPUs and the loader. -/
def step (cfg : Config N) (env : Env) (s : Os c N) : Label c → Option (Os c N)
  | .timer => s.timer.advance.map fun timer => { s with timer }
  | .timerWake => s.timer.wakeTimer.map fun timer => { s with timer }
  | .cpu i => s.cpuStep cfg env i
  | .cpuWake i => (s.timer.wake (cpuDev i)).map fun timer => { s with timer }
  | .loader => s.loaderStep cfg
  | .loaderWake => (s.timer.wake loaderDev).map fun timer => { s with timer }
  | .stop =>
    if (∀ i, (s.cpus i).loc = .stopped) ∧ s.loader.loc = .finished then
      some { s with timer := s.timer.stop }
    else none

/-- The step relation of all threads. -/
def Step (cfg : Config N) (env : Env) (s : Os c N) (label : Label c) (t : Os c N) : Prop :=
  s.step cfg env label = some t

/-- The state that a list of steps leads to from the start. -/
def exec (cfg : Config N) (env : Env) (labels : List (Label c)) : Option (Os c N) :=
  labels.foldlM (step cfg env) (init cfg)

/-- The states of all runs of a configuration. -/
def Reachable (cfg : Config N) (env : Env) (s : Os c N) : Prop :=
  ∃ labels, Run (Step cfg env) (init cfg) labels s

end Os

end SimpleOS.Model
