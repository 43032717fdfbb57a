import SimpleOS.Model.Os
import SimpleOS.Proofs.Timer

/-! # What one step of a thread can do

`CpuMove` and `LoaderMove` list the steps of `cpu_routine` and `ld_routine` with their guards; every
other step of the simulator changes the timer alone. `Linked` ties the places of the threads to the
flags of their devices.
-/

namespace SimpleOS.Model.Os

open Lib Timer

variable {c N : ℕ} {cfg : Config N} {env : Env} {s t : Os c N} {i : Fin c} {label : Label c}

section SetCpu

variable (s : Os c N) (i : Fin c) (cpu : Cpu (Fin N))

@[simp] theorem setCpu_timer : (s.setCpu i cpu).timer = s.timer := rfl
@[simp] theorem setCpu_sched : (s.setCpu i cpu).sched = s.sched := rfl
@[simp] theorem setCpu_mem : (s.setCpu i cpu).mem = s.mem := rfl
@[simp] theorem setCpu_done : (s.setCpu i cpu).done = s.done := rfl
@[simp] theorem setCpu_loader : (s.setCpu i cpu).loader = s.loader := rfl
@[simp] theorem setCpu_freed : (s.setCpu i cpu).freed = s.freed := rfl
@[simp] theorem setCpu_executed : (s.setCpu i cpu).executed = s.executed := rfl
@[simp] theorem setCpu_cpus_self : (s.setCpu i cpu).cpus i = cpu := by simp [setCpu]

private theorem setCpu_self : s.setCpu i (s.cpus i) = s := by rw [setCpu, Function.update_eq_self]

end SetCpu

/-- The steps of CPU `i`. -/
inductive CpuMove (cfg : Config N) (env : Env) (s : Os c N) (i : Fin c) : Os c N → Prop
  | take {p : Fin N} {sched : Sched (Fin N)} (empty : (s.cpus i).loc = .top none ∨ (s.cpus i).loc = .fetch)
      (got : s.sched.getProc = (sched, some p)) :
      CpuMove cfg env s i ({ s with sched }.setCpu i { s.cpus i with loc := .recheck (some p) })
  | idle {sched : Sched (Fin N)} (here : (s.cpus i).loc = .top none)
      (got : s.sched.getProc = (sched, none)) :
      CpuMove cfg env s i ({ s with sched }.setCpu i { s.cpus i with loc := .slot none })
  | miss {sched : Sched (Fin N)} (here : (s.cpus i).loc = .fetch)
      (got : s.sched.getProc = (sched, none)) :
      CpuMove cfg env s i ({ s with sched }.setCpu i { s.cpus i with loc := .recheck none })
  | retire {p : Fin N} (here : (s.cpus i).loc = .top (some p)) (finished : s.Finished p) :
      CpuMove cfg env s i ({ s with freed := Function.update s.freed p true }.setCpu i
        { s.cpus i with loc := .fetch, timeLeft := 0 })
  | put {p : Fin N} (here : (s.cpus i).loc = .top (some p)) (unfinished : ¬s.Finished p)
      (spent : (s.cpus i).timeLeft = 0) :
      CpuMove cfg env s i ({ s with sched := s.sched.putProc (s.mem.procs p).prio p }.setCpu i
        { s.cpus i with loc := .fetch })
  | keep {p : Fin N} (here : (s.cpus i).loc = .top (some p)) (unfinished : ¬s.Finished p)
      (left : (s.cpus i).timeLeft ≠ 0) :
      CpuMove cfg env s i (s.setCpu i { s.cpus i with loc := .recheck (some p) })
  | leave (here : (s.cpus i).loc = .recheck none) (done : s.done = true) :
      CpuMove cfg env s i (s.setCpu i { s.cpus i with loc := .leaving })
  | skip (here : (s.cpus i).loc = .recheck none) (pending : s.done = false) :
      CpuMove cfg env s i (s.setCpu i { s.cpus i with loc := .slot none })
  | dispatch {p : Fin N} {timeLeft : Int} (here : (s.cpus i).loc = .recheck (some p)) :
      CpuMove cfg env s i (s.setCpu i { s.cpus i with loc := .run p, timeLeft })
  | run {p : Fin N} {mem : Machine (Fin N)} {status : Int} (here : (s.cpus i).loc = .run p)
      (ran : s.mem.run env s.sched.runningList p = .ok (mem, status)) :
      CpuMove cfg env s i ({ s with
          mem
          executed := Function.update s.executed p
            (s.executed p ++ ((s.mem.procs p).text[(s.mem.procs p).pc]?).toList) }.setCpu i
        ⟨.slot (some p), (s.cpus i).timeLeft - 1, (s.cpus i).runTimes ++ [s.timer.time]⟩)
  | start {proc : Option (Fin N)} (here : (s.cpus i).loc = .slot proc)
      (outside : (s.timer.devs (cpuDev i)).phase = .working) :
      CpuMove cfg env s i { s with timer := s.timer.start (cpuDev i) }
  | sleep {proc : Option (Fin N)} (here : (s.cpus i).loc = .slot proc)
      (inside : (s.timer.devs (cpuDev i)).phase = .entered) 
      (raised : (s.timer.devs (cpuDev i)).done = true) :
      CpuMove cfg env s i { s with timer := s.timer.look (cpuDev i) }
  | wakeUp {proc : Option (Fin N)} (here : (s.cpus i).loc = .slot proc)
      (inside : (s.timer.devs (cpuDev i)).phase = .entered)
      (released : (s.timer.devs (cpuDev i)).done = false) :
      CpuMove cfg env s i ({ s with timer := s.timer.look (cpuDev i) }.setCpu i
        { s.cpus i with loc := .top proc })
  | detach (here : (s.cpus i).loc = .leaving) :
      CpuMove cfg env s i ({ s with timer := s.timer.detach (cpuDev i) }.setCpu i
        { s.cpus i with loc := .stopped })

/-- The steps of the loader. -/
inductive LoaderMove (cfg : Config N) (s : Os c N) : Os c N → Prop
  | hold {p : Fin N} (here : s.loader.loc = .check) (next : p = s.loader.i)
      (early : s.timer.time < cfg.startTime p) :
      LoaderMove cfg s { s with loader := { s.loader with loc := .slot } }
  | ready {p : Fin N} (here : s.loader.loc = .check) (next : p = s.loader.i)
      (due : cfg.startTime p ≤ s.timer.time) :
      LoaderMove cfg s { s with loader := { s.loader with loc := .adding } }
  | finish (here : s.loader.loc = .check) (all : N ≤ s.loader.i) :
      LoaderMove cfg s { s with done := true, loader := { s.loader with loc := .leaving } }
  | add {p : Fin N} (here : s.loader.loc = .adding) (next : p = s.loader.i) :
      LoaderMove cfg s { s with
        sched := s.sched.addProc (s.mem.procs p).prio p
        loader := ⟨.slot, s.loader.i + 1⟩ }
  | start (here : s.loader.loc = .slot) (outside : (s.timer.devs loaderDev).phase = .working) :
      LoaderMove cfg s { s with timer := s.timer.start loaderDev }
  | sleep (here : s.loader.loc = .slot) (inside : (s.timer.devs loaderDev).phase = .entered)
      (raised : (s.timer.devs loaderDev).done = true) :
      LoaderMove cfg s { s with timer := s.timer.look loaderDev }
  | wakeUp (here : s.loader.loc = .slot) (inside : (s.timer.devs loaderDev).phase = .entered)
      (released : (s.timer.devs loaderDev).done = false) :
      LoaderMove cfg s { s with
        timer := s.timer.look loaderDev
        loader := { s.loader with loc := .check } }
  | detach (here : s.loader.loc = .leaving) :
      LoaderMove cfg s { s with
        timer := s.timer.detach loaderDev
        loader := { s.loader with loc := .finished } }

/-- The steps of all threads. -/
inductive Move (cfg : Config N) (env : Env) (s : Os c N) : Label c → Os c N → Prop
  | clock {label : Label c} {timer : Timer.State (c + 1)} (moved : Clock s.timer timer)
      (quiet : ∀ i, label ≠ .cpu i) : Move cfg env s label { s with timer }
  | cpu {i : Fin c} {t : Os c N} (moved : CpuMove cfg env s i t) : Move cfg env s (.cpu i) t
  | loader {t : Os c N} (moved : LoaderMove cfg s t) : Move cfg env s .loader t
  | stop (stopped : ∀ i, (s.cpus i).loc = .stopped) (finished : s.loader.loc = .finished) :
      Move cfg env s .stop { s with timer := s.timer.stop }

/-- A call of `next_slot` starts, goes to sleep or returns. -/
private theorem nextSlot_cases {n : ℕ} {s t : Timer.State n} {d : Fin n} (taken : s.nextSlot d = some t) :
    ((s.devs d).phase = .working ∧ t = s.start d ∧ (t.devs d).phase ≠ .working) ∨
    ((s.devs d).phase = .entered ∧ (s.devs d).done = true ∧ t = s.look d ∧ (t.devs d).phase ≠ .working) ∨
    ((s.devs d).phase = .entered ∧ (s.devs d).done = false ∧ t = s.look d ∧ (t.devs d).phase = .working) := by
  simp only [Timer.State.nextSlot] at taken
  split at taken
  · cases taken
    exact .inl ⟨‹_›, rfl, by simp [Timer.State.start, Timer.State.setDev]⟩
  · cases taken
    cases raised : (s.devs d).done with
    | true => exact .inr (.inl ⟨‹_›, rfl, rfl, by simp [Timer.State.look, Timer.State.setDev, raised]⟩)
    | false => exact .inr (.inr ⟨‹_›, rfl, rfl, by simp [Timer.State.look, Timer.State.setDev, raised]⟩)
  · cases taken

theorem cpuStep_move (taken : s.cpuStep cfg env i = some t) : CpuMove cfg env s i t := by
  simp only [cpuStep] at taken
  split at taken
  · split at taken <;> cases taken
    · exact .take (.inl ‹_›) ‹_›
    · exact .idle ‹_› ‹_›
  · split_ifs at taken <;> cases taken
    · exact .retire ‹_› ‹_›
    · exact .put ‹_› ‹_› ‹_›
    · exact .keep ‹_› ‹_› ‹_›
  · cases got : s.sched.getProc with
    | mk sched proc =>
      rw [got] at taken
      cases taken
      cases proc with
      | none => exact .miss ‹_› got
      | some p => exact .take (.inr ‹_›) got
  · split_ifs at taken with done <;> cases taken
    · exact .leave ‹_› done
    · exact .skip ‹_› (by simpa using done)
  · cases taken
    exact .dispatch ‹_›
  · split at taken
    · cases taken
    · cases taken
      exact .run ‹_› ‹_›
  · rename_i proc here
    obtain ⟨timer, moved, rfl⟩ := Option.map_eq_some_iff.mp taken
    have same : { s.cpus i with loc := .slot proc } = s.cpus i := by rw [← here]
    obtain ⟨outside, rfl, later⟩ | ⟨inside, raised, rfl, later⟩ | ⟨inside, released, rfl, later⟩ :=
      nextSlot_cases moved
    · rw [if_neg later, same, setCpu_self { s with timer := _ } i]
      exact .start here outside
    · rw [if_neg later, same, setCpu_self { s with timer := _ } i]
      exact .sleep here inside raised
    · rw [if_pos later]
      exact .wakeUp here inside released
  · cases taken
    exact .detach ‹_›
  · cases taken

theorem loaderStep_move (taken : s.loaderStep cfg = some t) : LoaderMove cfg s t := by
  simp only [loaderStep] at taken
  split at taken
  · rename_i here
    split at taken
    · cases taken
      split_ifs with early
      · exact .hold here rfl early
      · exact .ready here rfl (Nat.le_of_not_lt early)
    · cases taken
      exact .finish here (Nat.le_of_not_lt ‹_›)
  · split at taken
    · cases taken
      exact .add ‹_› rfl
    · cases taken
  · rename_i here
    obtain ⟨timer, moved, rfl⟩ := Option.map_eq_some_iff.mp taken
    have same : { s.loader with loc := .slot } = s.loader := by rw [← here]
    obtain ⟨outside, rfl, later⟩ | ⟨inside, raised, rfl, later⟩ | ⟨inside, released, rfl, later⟩ :=
      nextSlot_cases moved
    · rw [if_neg later, same]
      exact .start here outside
    · rw [if_neg later, same]
      exact .sleep here inside raised
    · rw [if_pos later]
      exact .wakeUp here inside released
  · cases taken
    exact .detach ‹_›
  · cases taken

theorem Step.move (taken : Step cfg env s label t) : Move cfg env s label t := by
  cases label with
  | timer =>
    obtain ⟨timer, moved, rfl⟩ := Option.map_eq_some_iff.mp taken
    exact .clock (.advance moved) nofun
  | timerWake =>
    obtain ⟨timer, moved, rfl⟩ := Option.map_eq_some_iff.mp taken
    exact .clock (.wakeTimer moved) nofun
  | cpu i => exact .cpu (cpuStep_move taken)
  | cpuWake i =>
    obtain ⟨timer, moved, rfl⟩ := Option.map_eq_some_iff.mp taken
    exact .clock (.wake moved) nofun
  | loader => exact .loader (loaderStep_move taken)
  | loaderWake =>
    obtain ⟨timer, moved, rfl⟩ := Option.map_eq_some_iff.mp taken
    exact .clock (.wake moved) nofun
  | stop =>
    simp only [Step, step] at taken
    split_ifs at taken with ended
    cases taken
    exact .stop ended.1 ended.2

theorem cpuDev_injective : Function.Injective (cpuDev (c := c)) :=
  Fin.rev_injective.comp (Fin.castSucc_injective c)

theorem cpuDev_ne_loaderDev (i : Fin c) : cpuDev i ≠ loaderDev :=
  fun same => Fin.castSucc_ne_last i (Fin.rev_injective same)

/-- The flags of a device agree with the place of its thread. -/
structure DevLinked (dev : Device) (inSlot gone : Prop) : Prop where
  fsh : dev.fsh = true ↔ gone
  phase : dev.phase ≠ .working → inSlot

/-- The timer invariant, with every device linked to its thread. -/
structure Linked (timer : Timer.State (c + 1)) (cpus : Fin c → Cpu (Fin N)) (loader : Loader) : Prop where
  inv : Inv timer
  cpu : ∀ i, DevLinked (timer.devs (cpuDev i)) (∃ proc, (cpus i).loc = .slot proc) ((cpus i).loc = .stopped)
  loader : DevLinked (timer.devs loaderDev) (loader.loc = .slot) (loader.loc = .finished)

theorem DevLinked.attached {dev : Device} {inSlot gone : Prop} (linked : DevLinked dev inSlot gone)
    (here : ¬gone) : dev.fsh = false :=
  Bool.eq_false_iff.mpr fun raised => here (linked.fsh.mp raised)

theorem DevLinked.outside {dev : Device} {inSlot gone : Prop} (linked : DevLinked dev inSlot gone)
    (here : ¬inSlot) : dev.phase = .working :=
  not_ne_iff.mp fun inside => here (linked.phase inside)

theorem DevLinked.congr {dev dev' : Device} {inSlot gone : Prop} (linked : DevLinked dev inSlot gone)
    (same : dev.Same dev') : DevLinked dev' inSlot gone where
  fsh := by rw [same.fsh]; exact linked.fsh
  phase inside := linked.phase fun outside => inside (same.working.mpr outside)

namespace Linked

variable {timer timer' : Timer.State (c + 1)} {cpus : Fin c → Cpu (Fin N)} {loader : Loader}

theorem init (cfg : Config N) : Linked (N := N) (Os.init (c := c) cfg).timer (Os.init (c := c) cfg).cpus
    (Os.init (c := c) cfg).loader where
  inv := .init
  cpu i := ⟨by simp [Os.init, Timer.State.init], by simp [Os.init, Timer.State.init]⟩
  loader := ⟨by simp [Os.init, Timer.State.init], by simp [Os.init, Timer.State.init]⟩

/-- One CPU and its device change. -/
private theorem setCpu (linked : Linked timer cpus loader) (inv : Inv timer') (cpu : Cpu (Fin N))
    (others : ∀ e, e ≠ cpuDev i → timer'.devs e = timer.devs e)
    (own : DevLinked (timer'.devs (cpuDev i)) (∃ proc, cpu.loc = .slot proc) (cpu.loc = .stopped)) :
    Linked timer' (Function.update cpus i cpu) loader where
  inv := inv
  cpu j := by
    rw [Function.update_apply]
    split
    · rename_i here
      rw [here]
      exact own
    · rename_i other
      rw [others _ fun same => other (cpuDev_injective same)]
      exact linked.cpu j
  loader := by
    rw [others _ (cpuDev_ne_loaderDev i).symm]
    exact linked.loader

/-- The loader and its device change. -/
private theorem setLoader (linked : Linked timer cpus loader) (inv : Inv timer') {loader' : Loader}
    (others : ∀ e, e ≠ loaderDev → timer'.devs e = timer.devs e)
    (own : DevLinked (timer'.devs loaderDev) (loader'.loc = .slot) (loader'.loc = .finished)) :
    Linked timer' cpus loader' where
  inv := inv
  cpu j := by
    rw [others _ (cpuDev_ne_loaderDev j)]
    exact linked.cpu j
  loader := own

/-- A CPU outside `next_slot` goes somewhere else without touching its device. -/
private theorem goCpu (linked : Linked timer cpus loader) {cpu : Cpu (Fin N)}
    (outside : ∀ proc, (cpus i).loc ≠ .slot proc) (before : (cpus i).loc ≠ .stopped)
    (after : cpu.loc ≠ .stopped) : Linked timer (Function.update cpus i cpu) loader := by
  have own := linked.cpu i
  refine linked.setCpu linked.inv cpu (fun _ _ => rfl) ⟨?_, ?_⟩
  · simp [own.attached before, after]
  · intro inside
    exact absurd (own.outside fun ⟨proc, here⟩ => outside proc here) inside

private theorem goLoader (linked : Linked timer cpus loader) {loader' : Loader}
    (outside : loader.loc ≠ .slot) (before : loader.loc ≠ .finished) (after : loader'.loc ≠ .finished) :
    Linked timer cpus loader' := by
  have own := linked.loader
  refine linked.setLoader linked.inv (fun _ _ => rfl) ⟨?_, ?_⟩
  · simp [own.attached before, after]
  · intro inside
    exact absurd (own.outside outside) inside

private theorem clock (linked : Linked timer cpus loader) (moved : Clock timer timer') :
    Linked timer' cpus loader where
  inv := linked.inv.step moved.step
  cpu j := (linked.cpu j).congr (moved.same _)
  loader := linked.loader.congr (moved.same _)

end Linked

theorem setDev_others {n : ℕ} (timer : Timer.State n) (d : Fin n) (dev : Device) (e : Fin n)
    (other : e ≠ d) : (timer.setDev d dev).devs e = timer.devs e := Function.update_of_ne other _ _

/-- A CPU changes neither another CPU nor another device. -/
theorem CpuMove.others (moved : CpuMove cfg env s i t) {j : Fin c} (other : j ≠ i) :
    t.cpus j = s.cpus j ∧ t.timer.devs (cpuDev j) = s.timer.devs (cpuDev j) := by
  have apart : cpuDev j ≠ cpuDev i := fun same => other (cpuDev_injective same)
  cases moved with
  | start here outside => exact ⟨rfl, setDev_others s.timer _ _ _ apart⟩
  | sleep here inside raised => exact ⟨rfl, setDev_others s.timer _ _ _ apart⟩
  | wakeUp here inside released =>
    exact ⟨Function.update_of_ne other _ _, setDev_others s.timer _ _ _ apart⟩
  | detach here => exact ⟨Function.update_of_ne other _ _, setDev_others s.timer _ _ _ apart⟩
  | _ => exact ⟨Function.update_of_ne other _ _, rfl⟩

theorem LoaderMove.others (moved : LoaderMove cfg s t) (j : Fin c) :
    t.cpus = s.cpus ∧ t.timer.devs (cpuDev j) = s.timer.devs (cpuDev j) := by
  have apart := cpuDev_ne_loaderDev j
  cases moved with
  | start here outside => exact ⟨rfl, setDev_others s.timer _ _ _ apart⟩
  | sleep here inside raised => exact ⟨rfl, setDev_others s.timer _ _ _ apart⟩
  | wakeUp here inside released => exact ⟨rfl, setDev_others s.timer _ _ _ apart⟩
  | detach here => exact ⟨rfl, setDev_others s.timer _ _ _ apart⟩
  | _ => exact ⟨rfl, rfl⟩

private theorem CpuMove.linked (linked : Linked s.timer s.cpus s.loader) (moved : CpuMove cfg env s i t) :
    Linked t.timer t.cpus t.loader := by
  have own := linked.cpu i
  cases moved with
  | take empty got =>
    obtain here | here := empty <;> exact linked.goCpu (by simp [here]) (by simp [here]) (by simp)
  | idle here got => exact linked.goCpu (by simp [here]) (by simp [here]) (by simp)
  | miss here got => exact linked.goCpu (by simp [here]) (by simp [here]) (by simp)
  | retire here finished => exact linked.goCpu (by simp [here]) (by simp [here]) (by simp)
  | put here unfinished spent => exact linked.goCpu (by simp [here]) (by simp [here]) (by simp)
  | keep here unfinished left => exact linked.goCpu (by simp [here]) (by simp [here]) (by simp)
  | leave here done => exact linked.goCpu (by simp [here]) (by simp [here]) (by simp)
  | skip here pending => exact linked.goCpu (by simp [here]) (by simp [here]) (by simp)
  | dispatch here => exact linked.goCpu (by simp [here]) (by simp [here]) (by simp)
  | run here ran => exact linked.goCpu (by simp [here]) (by simp [here]) (by simp)
  | start here outside =>
    have attached := own.attached (by simp [here])
    have moved := linked.setCpu (linked.inv.start attached outside) (s.cpus i)
      (setDev_others s.timer (cpuDev i) _) ⟨?_, fun _ => ⟨_, here⟩⟩
    · rwa [Function.update_eq_self] at moved
    · simp [Timer.State.start, Timer.State.setDev, attached, here]
  | sleep here inside raised =>
    have attached := own.attached (by simp [here])
    have moved := linked.setCpu (linked.inv.look inside) (s.cpus i)
      (setDev_others s.timer (cpuDev i) _) ⟨?_, fun _ => ⟨_, here⟩⟩
    · rwa [Function.update_eq_self] at moved
    · simp [Timer.State.look, Timer.State.setDev, attached, here]
  | wakeUp here inside released =>
    have attached := own.attached (by simp [here])
    refine linked.setCpu (linked.inv.look inside) _ (setDev_others s.timer (cpuDev i) _) ⟨?_, ?_⟩
    · simp [Timer.State.look, Timer.State.setDev, attached]
    · simp [Timer.State.look, Timer.State.setDev, released]
  | detach here =>
    have outside := own.outside (by simp [here])
    refine linked.setCpu (linked.inv.detach outside) _ (setDev_others s.timer (cpuDev i) _) ⟨?_, ?_⟩
    · simp [Timer.State.detach, Timer.State.setDev]
    · simp [Timer.State.detach, Timer.State.setDev, outside]

private theorem LoaderMove.linked (linked : Linked s.timer s.cpus s.loader) (moved : LoaderMove cfg s t) :
    Linked t.timer t.cpus t.loader := by
  have own := linked.loader
  cases moved with
  | hold here next early => exact linked.goLoader (by simp [here]) (by simp [here]) (by simp)
  | ready here next due => exact linked.goLoader (by simp [here]) (by simp [here]) (by simp)
  | finish here all => exact linked.goLoader (by simp [here]) (by simp [here]) (by simp)
  | add here next => exact linked.goLoader (by simp [here]) (by simp [here]) (by simp)
  | start here outside =>
    have attached := own.attached (by simp [here])
    refine linked.setLoader (linked.inv.start attached outside) (setDev_others s.timer loaderDev _)
      ⟨?_, fun _ => here⟩
    simp [Timer.State.start, Timer.State.setDev, attached, here]
  | sleep here inside raised =>
    have attached := own.attached (by simp [here])
    refine linked.setLoader (linked.inv.look inside) (setDev_others s.timer loaderDev _)
      ⟨?_, fun _ => here⟩
    simp [Timer.State.look, Timer.State.setDev, attached, here]
  | wakeUp here inside released =>
    have attached := own.attached (by simp [here])
    refine linked.setLoader (linked.inv.look inside) (setDev_others s.timer loaderDev _) ⟨?_, ?_⟩
    · simp [Timer.State.look, Timer.State.setDev, attached]
    · simp [Timer.State.look, Timer.State.setDev, released]
  | detach here =>
    have outside := own.outside (by simp [here])
    refine linked.setLoader (linked.inv.detach outside) (setDev_others s.timer loaderDev _) ⟨?_, ?_⟩
    · simp [Timer.State.detach, Timer.State.setDev]
    · simp [Timer.State.detach, Timer.State.setDev, outside]

/-- Every device is that of a CPU or of the loader. -/
theorem dev_cases (d : Fin (c + 1)) : d = loaderDev ∨ ∃ i : Fin c, d = cpuDev i := by
  induction h : d.rev using Fin.lastCases with
  | last => exact .inl (by rw [loaderDev, ← h, Fin.rev_rev])
  | cast i => exact .inr ⟨i, by rw [cpuDev, ← h, Fin.rev_rev]⟩

private theorem Move.linked (linked : Linked s.timer s.cpus s.loader) (moved : Move cfg env s label t) :
    Linked t.timer t.cpus t.loader := by
  cases moved with
  | clock moved => exact linked.clock moved
  | cpu moved => exact moved.linked linked
  | loader moved => exact moved.linked linked
  | stop stopped finished =>
    refine ⟨linked.inv.stop fun d => ?_, linked.cpu, linked.loader⟩
    obtain rfl | ⟨i, rfl⟩ := dev_cases d
    · exact linked.loader.fsh.mpr finished
    · exact (linked.cpu i).fsh.mpr (stopped i)

theorem Reachable.init (cfg : Config N) (env : Env) : Reachable cfg env (init cfg : Os c N) := ⟨[], .start⟩

theorem Reachable.next (reached : Reachable cfg env s) (taken : Step cfg env s label t) :
    Reachable cfg env t := by
  obtain ⟨labels, run⟩ := reached
  exact ⟨_, run.next taken⟩

theorem Reachable.of_exec {labels : List (Label c)} (computed : exec cfg env labels = some s) :
    Reachable cfg env s := ⟨labels, Run.of_foldlM computed⟩

/-- What holds at the start and is kept by every step from a reachable state holds in all of them. -/
theorem Reachable.keeps (Inv : Os c N → Prop) (reached : Reachable cfg env s) (initial : Inv (.init cfg))
    (kept : ∀ now label after, Reachable cfg env now → Inv now → Move cfg env now label after → Inv after) :
    Inv s := by
  obtain ⟨labels, run⟩ := reached
  have both : Reachable cfg env s ∧ Inv s := by
    induction run with
    | start => exact ⟨.init cfg env, initial⟩
    | next earlier taken ih =>
      obtain ⟨before, inv⟩ := ih
      exact ⟨before.next taken, kept _ _ _ before inv (Step.move taken)⟩
  exact both.2

theorem Reachable.linked (reached : Reachable cfg env s) : Linked s.timer s.cpus s.loader := by
  obtain ⟨labels, run⟩ := reached
  exact run.keeps (Linked.init cfg) fun _ _ _ linked taken => (Step.move taken).linked linked

/-- The flag `done`, the loader and the stopped CPUs. -/
structure Flags (s : Os c N) : Prop where
  loader : s.done = true ↔ s.loader.loc = .leaving ∨ s.loader.loc = .finished
  all : s.done = true → N ≤ s.loader.i
  running : s.done = false → ∀ i, (s.cpus i).loc ≠ .leaving ∧ (s.cpus i).loc ≠ .stopped

private theorem Flags.setCpu (flags : Flags s) {cpu : Cpu (Fin N)} (changed : t.cpus = Function.update s.cpus i cpu)
    (done : t.done = s.done) (loader : t.loader = s.loader)
    (here : s.done = false → cpu.loc ≠ .leaving ∧ cpu.loc ≠ .stopped) : Flags t where
  loader := by rw [done, loader]; exact flags.loader
  all ended := by
    rw [loader]
    exact flags.all (done ▸ ended)
  running pending j := by
    rw [done] at pending
    rw [changed, Function.update_apply]
    split
    · exact here pending
    · exact flags.running pending j

private theorem CpuMove.flags (flags : Flags s) (moved : CpuMove cfg env s i t) : Flags t := by
  cases moved with
  | leave here done => exact flags.setCpu rfl rfl rfl (by simp [done])
  | detach here =>
    refine flags.setCpu rfl rfl rfl fun pending => ?_
    exact absurd here (flags.running pending i).1
  | start here outside => exact ⟨flags.loader, flags.all, flags.running⟩
  | sleep here inside raised => exact ⟨flags.loader, flags.all, flags.running⟩
  | _ => exact flags.setCpu rfl rfl rfl (by simp)

private theorem LoaderMove.flags (flags : Flags s) (moved : LoaderMove cfg s t) : Flags t := by
  have pending : s.loader.loc ≠ .leaving → s.loader.loc ≠ .finished → s.done = false := by
    intro staying here
    apply Bool.eq_false_iff.mpr
    intro done
    obtain leaving | finished := flags.loader.mp done
    · exact staying leaving
    · exact here finished
  cases moved with
  | hold here next early =>
    have waiting := pending (by simp [here]) (by simp [here])
    exact ⟨by simp [waiting], by simp [waiting], flags.running⟩
  | ready here next due =>
    have waiting := pending (by simp [here]) (by simp [here])
    exact ⟨by simp [waiting], by simp [waiting], flags.running⟩
  | finish here all => exact ⟨by simp, fun _ => all, by simp⟩
  | add here next =>
    have waiting := pending (by simp [here]) (by simp [here])
    exact ⟨by simp [waiting], by simp [waiting], flags.running⟩
  | start here outside => exact ⟨flags.loader, flags.all, flags.running⟩
  | sleep here inside raised => exact ⟨flags.loader, flags.all, flags.running⟩
  | wakeUp here inside released =>
    have waiting := pending (by simp [here]) (by simp [here])
    exact ⟨by simp [waiting], by simp [waiting], flags.running⟩
  | detach here => exact ⟨by simp [flags.loader.mpr (.inl here)], flags.all, flags.running⟩

theorem Reachable.flags (reached : Reachable cfg env s) : Flags s := by
  refine Reachable.keeps Flags reached ?_ fun now label after _ flags moved => ?_
  · constructor <;> simp [Os.init]
  · cases moved with
    | cpu moved => exact moved.flags flags
    | loader moved => exact moved.flags flags
    | _ => exact ⟨flags.loader, flags.all, flags.running⟩

end SimpleOS.Model.Os
