import SimpleOS.Soundness.Isolation
import SimpleOS.Soundness.Scheduling

/-! # Every process is run to its end

With at most as many processes as a queue has entries no call is refused, so every process stays in one
place until it is freed. The CPUs do not stop before the ready queues are empty: after its last `add_proc`
the loader waits for a whole slot before it sets `done`, so a CPU that finds the queues empty and `done`
set has looked after the last process was added.
-/

namespace SimpleOS.Model.Os

open Lib Timer

variable {c N : ℕ} {cfg : Config N} {env : Env} {s t : Os c N} {i : Fin c} {label : Label c} {p : Fin N}

/-- A CPU that may leave without another look at the ready queues. -/
def Doomed (loc : CpuLoc (Fin N)) : Prop := loc = .recheck none ∨ loc = .leaving ∨ loc = .stopped

/-- The loader has a whole barrier ahead of it before it can set `done`. -/
def LoaderWaits (s : Os c N) : Prop :=
  s.loader.loc = .slot ∧ ((s.timer.devs loaderDev).phase = .working ∨
    (s.timer.devs loaderDev).startTimes.length = s.timer.time + 1)

/-- While a process is ready, somebody will still look at the queues. -/
def Served (s : Os c N) : Prop :=
  (∃ level, s.sched.mlqReadyQueue level ≠ []) → (∃ i, ¬Doomed (s.cpus i).loc) ∨ s.LoaderWaits

private theorem Served.of_cpu (there : ¬Doomed (s.cpus i).loc) : Served s := fun _ => .inl ⟨i, there⟩

private theorem Served.of_empty (empty : ∀ level, s.sched.mlqReadyQueue level = []) : Served s := by
  rintro ⟨level, ready⟩
  exact absurd (empty level) ready

theorem LoaderWaits.congr (waits : s.LoaderWaits) (loader : t.loader = s.loader)
    (time : t.timer.time = s.timer.time)
    (same : (s.timer.devs loaderDev).Same (t.timer.devs loaderDev)) : t.LoaderWaits := by
  rw [LoaderWaits, loader, time, same.working, same.startTimes]
  exact waits

/-- A doomed CPU goes on. -/
private theorem Served.go (served : Served s) (doomed : Doomed (s.cpus i).loc)
    (queues : t.sched = s.sched) (others : ∀ j, j ≠ i → t.cpus j = s.cpus j)
    (waits : s.LoaderWaits → t.LoaderWaits) : Served t := by
  intro ready
  rw [queues] at ready
  obtain ⟨j, there⟩ | waiting := served ready
  · have other : j ≠ i := by
      rintro rfl
      exact there doomed
    exact .inl ⟨j, by rw [others j other]; exact there⟩
  · exact .inr (waits waiting)

private theorem CpuMove.served (served : Served s) (moved : CpuMove cfg env s i t) : Served t := by
  have others := fun j (other : j ≠ i) => (moved.others other).1
  cases moved with
  | take empty got => exact .of_cpu (i := i) (by simp [Doomed])
  | idle here got =>
    obtain ⟨empty, same, _⟩ := Sched.getProc_none got
    exact .of_empty fun level => (congrFun same level).trans (empty level)
  | miss here got =>
    obtain ⟨empty, same, _⟩ := Sched.getProc_none got
    exact .of_empty fun level => (congrFun same level).trans (empty level)
  | leave here done => exact served.go (i := i) (.inl here) rfl others id
  | detach here =>
    refine served.go (i := i) (.inr (.inl here)) rfl others fun waits => waits.congr rfl rfl ?_
    rw [setCpu_timer]
    have same := setDev_others s.timer (cpuDev i) { s.timer.devs (cpuDev i) with fsh := true } loaderDev
      (cpuDev_ne_loaderDev i).symm
    exact same.symm ▸ .refl _
  | start here outside => exact .of_cpu (i := i) (by simp [Doomed, here])
  | sleep here inside raised => exact .of_cpu (i := i) (by simp [Doomed, here])
  | _ => exact .of_cpu (i := i) (by simp [Doomed])

private theorem LoaderMove.served (linked : Linked s.timer s.cpus s.loader) (served : Served s)
    (moved : LoaderMove cfg s t) : Served t := by
  have own := linked.loader
  have ok := linked.inv.device loaderDev
  have notWaiting : ∀ t : Os c N, t.sched = s.sched → t.cpus = s.cpus → ¬s.LoaderWaits → Served t := by
    intro t sched cpus busy ready
    rw [sched] at ready
    rw [cpus]
    exact .inl ((served ready).resolve_right busy)
  have away : s.loader.loc ≠ .slot → ¬s.LoaderWaits := fun elsewhere waits => elsewhere waits.1
  cases moved with
  | hold here next early => exact fun _ => .inr ⟨rfl, .inl (own.outside (by simp [here]))⟩
  | ready here next due => exact notWaiting _ rfl rfl (away (by simp [here]))
  | finish here all => exact notWaiting _ rfl rfl (away (by simp [here]))
  | add here next => exact fun _ => .inr ⟨rfl, .inl (own.outside (by simp [here]))⟩
  | start here outside =>
    have attached := own.attached (by simp [here])
    have started := (ok.started attached (ok.working outside attached)).2
    refine fun _ => .inr ⟨here, .inr ?_⟩
    simp [Timer.State.start, Timer.State.setDev, started]
  | sleep here inside raised =>
    intro ready
    obtain there | ⟨_, outside | ahead⟩ := served ready
    · exact .inl there
    · rw [inside] at outside
      cases outside
    · refine .inr ⟨here, .inr ?_⟩
      simpa [Timer.State.look, Timer.State.setDev] using ahead
  | wakeUp here inside released =>
    have started := (ok.started (own.attached (by simp [here])) released).2
    refine notWaiting _ rfl rfl ?_
    rintro ⟨_, outside | ahead⟩
    · rw [inside] at outside
      cases outside
    · omega
  | detach here => exact notWaiting _ rfl rfl (away (by simp [here]))

/-- When the time goes up before `done` is set, all CPUs are in `next_slot`. -/
private theorem Served.clock (linked : Linked s.timer s.cpus s.loader) (flags : Flags s) (someCpu : 0 < c)
    (served : Served s) {timer : Timer.State (c + 1)} (moved : Clock s.timer timer) :
    Served { s with timer } := by
  intro ready
  obtain there | waits := served ready
  · exact .inl there
  by_cases same : timer.time = s.timer.time
  · exact .inr (waits.congr rfl same (moved.same _))
  · obtain ⟨_, all⟩ := moved.time linked.inv same
    have pending : s.done = false := by
      apply Bool.eq_false_iff.mpr
      intro done
      obtain here | here := flags.loader.mp done
      · simp [waits.1] at here
      · simp [waits.1] at here
    have own := linked.cpu ⟨0, someCpu⟩
    obtain ⟨proc, here⟩ := own.phase (all _ (own.attached (flags.running pending _).2))
    exact .inl ⟨⟨0, someCpu⟩, by simp [Doomed, here]⟩

theorem Reachable.served (someCpu : 0 < c) (reached : Reachable cfg env s) : Served s := by
  apply Reachable.keeps Served reached (.of_empty fun _ => rfl)
  intro now label after before served moved
  cases moved with
  | clock moved => exact served.clock before.linked before.flags someCpu moved
  | cpu moved => exact moved.served served
  | loader moved => exact moved.served before.linked served
  | stop stopped finished => exact served

/-- With at most as many processes as a queue has entries, no level refuses a process. -/
private theorem not_refuses (reached : Reachable cfg env s) (small : N ≤ maxQueueSize)
    (levels : ∀ p, cfg.level p < maxPrio) (p : Fin N) (label : Label c) : ¬s.Refuses p label := by
  have once : ∀ q, s.sched.queued q ≤ 1 := fun q =>
    (Nat.le_add_right _ _).trans (reached.accounted q).once
  have bound : (s.mem.procs p).prio < maxPrio := by
    rw [(reached.loaded p).prio]
    exact levels p
  intro refused
  cases label with
  | loader =>
    obtain ⟨_, next, full⟩ := refused
    have none := ((reached.accounted p).unborn next.ge).1
    rw [places] at none
    exact full (Sched.accepts_of_card small bound once (by omega : s.sched.queued p = 0))
  | cpu i =>
    obtain ⟨here, _, _, full⟩ := refused
    have one : 1 ≤ s.held p := one_le_held (i := i) (by rw [here]; rfl)
    have total := (reached.accounted p).once
    rw [places] at total
    exact full (Sched.accepts_of_card small bound once (by omega : s.sched.queued p = 0))
  | _ => exact refused

theorem Reachable.present (reached : Reachable cfg env s) (small : N ≤ maxQueueSize)
    (levels : ∀ p, cfg.level p < maxPrio) (p : Fin N) : Present s p := by
  apply Reachable.keeps (Present · p) reached (.init cfg p)
  intro now label after before present moved
  exact moved.present (before.accounted p) present (not_refuses before small levels p label)

/-- No process has two places. -/
structure Exclusive (s : Os c N) : Prop where
  oneCpu : ∀ p i j, (s.cpus i).loc.proc = some p → (s.cpus j).loc.proc = some p → i = j
  cpuOrQueue : ∀ p i level, (s.cpus i).loc.proc = some p → p ∉ s.sched.mlqReadyQueue level
  onceInQueue : ∀ level, (s.sched.mlqReadyQueue level).Nodup
  oneQueue : ∀ p level level', p ∈ s.sched.mlqReadyQueue level → p ∈ s.sched.mlqReadyQueue level' →
    level = level'

private theorem Reachable.exclusive (reached : Reachable cfg env s) : Exclusive s := by
  have once := fun p => (reached.accounted p).once
  constructor
  · exact fun p i j first second => (reached.accounted p).holder_unique first second
  · intro p i level here
    refine Sched.queued_eq_zero_iff.mp ?_ level
    have one := one_le_held here
    have total := once p
    rw [places] at total
    omega
  · intro level
    apply List.nodup_iff_count_le_one.mpr
    intro p
    have total := once p
    rw [places, Sched.queued] at total
    have own := le_tally (List.count p) s.sched.mlqReadyQueue level
    omega
  · intro p level level' first second
    apply not_ne_iff.mp
    intro apart
    have both := add_le_tally (List.count p) s.sched.mlqReadyQueue apart
    have total := once p
    rw [places, Sched.queued] at total
    have one := List.count_pos_iff.mpr first
    have two := List.count_pos_iff.mpr second
    omega

/-- The process has been dispatched and has no instruction left. -/
def Ended (p : Fin N) (s : Os c N) : Prop := s.Finished p ∧ s.sched.queued p = 0 ∧ p < s.loader.i

private theorem CpuMove.ended (ended : Ended p s) (moved : CpuMove cfg env s i t) : Ended p t := by
  obtain ⟨finished, absent, added⟩ := ended
  refine ⟨moved.finished finished, ?_, by rw [moved.loader.1]; exact added⟩
  cases moved with
  | take empty got =>
    have queues := Sched.getProc_queued (q := p) got
    rw [setCpu_sched]
    dsimp only
    omega
  | idle here got => exact (Sched.queued_congr (Sched.getProc_none got).2.1).trans absent
  | miss here got => exact (Sched.queued_congr (Sched.getProc_none got).2.1).trans absent
  | @put q here unfinished spent =>
    have other : q ≠ p := by
      rintro rfl
      exact unfinished finished
    rw [setCpu_sched, Sched.putProc_queued]
    by_cases accepted : s.sched.Accepts (s.mem.procs q).prio
    · rw [Sched.addProc_queued accepted, if_neg other, absent]
    · rw [Sched.addProc_refused accepted, absent]
  | _ => exact absent

private theorem LoaderMove.ended (ended : Ended p s) (moved : LoaderMove cfg s t) : Ended p t := by
  obtain ⟨finished, absent, added⟩ := ended
  cases moved with
  | @add q here next =>
    have other : q ≠ p := by
      rintro rfl
      omega
    refine ⟨finished, ?_, Nat.lt_succ_of_lt added⟩
    change (s.sched.addProc (s.mem.procs q).prio q).queued p = 0
    by_cases accepted : s.sched.Accepts (s.mem.procs q).prio
    · rw [Sched.addProc_queued accepted, if_neg other, absent]
    · rw [Sched.addProc_refused accepted, absent]
  | _ => exact ⟨finished, absent, added⟩

/-- A dispatched process without instructions never comes back to a ready queue. -/
theorem Ended.run {labels : List (Label c)} (ended : Ended p s) (later : Run (Step cfg env) s labels t) :
    Ended p t := by
  apply later.keeps ended
  intro now label after ended taken
  cases Step.move taken with
  | cpu moved => exact moved.ended ended
  | loader moved => exact moved.ended ended
  | _ => exact ended

/-- A process that a CPU holds at its end is dispatched for good. -/
private theorem Reachable.ended (reached : Reachable cfg env s) (here : (s.cpus i).loc.proc = some p)
    (finished : s.Finished p) : Ended p s := by
  have accounted := reached.accounted p
  have one := one_le_held here
  have once := accounted.once
  rw [places] at once
  refine ⟨finished, by omega, Nat.lt_of_not_le fun later => ?_⟩
  have none := (accounted.unborn later).1
  rw [places] at none
  omega

/-- When all CPUs have left, no process has a place. -/
theorem Reachable.places_of_stopped (someCpu : 0 < c) (reached : Reachable cfg env s) (done : s.done = true)
    (stopped : ∀ i, (s.cpus i).loc = .leaving ∨ (s.cpus i).loc = .stopped) (p : Fin N) : s.places p = 0 := by
  have empty : ∀ level, s.sched.mlqReadyQueue level = [] := by
    intro level
    apply not_ne_iff.mp
    intro ready
    obtain ⟨i, there⟩ | ⟨waits, _⟩ := reached.served someCpu ⟨level, ready⟩
    · exact there (.inr (stopped i))
    · obtain here | here := reached.flags.loader.mp done
      · simp [waits] at here
      · simp [waits] at here
  refine Nat.add_eq_zero_iff.mpr ⟨Sched.queued_eq_zero_iff.mpr ?_, held_eq_zero_iff.mpr fun i => ?_⟩
  · simp [empty]
  · obtain here | here := stopped i <;> simp [here, CpuLoc.proc]

/-- In every reachable state of a configuration with at most 50 processes at valid levels: no process
has two places; the calls of `run` for a process execute its program in order; a process that a CPU holds
at its end is in no ready queue from then on; and when the loader is done and all CPUs have left their
loops, every program has been executed. -/
theorem processes_run_once (small : N ≤ maxQueueSize) (levels : ∀ p, cfg.level p < maxPrio) (someCpu : 0 < c)
    (reached : Reachable cfg env s) :
    Exclusive s ∧
    (∀ p, s.executed p = (cfg.text p).take (s.mem.procs p).pc) ∧
    (∀ i p, (s.cpus i).loc.proc = some p → s.Finished p → ∀ labels t, Run (Step cfg env) s labels t →
      ∀ level, p ∉ t.sched.mlqReadyQueue level) ∧
    (s.done = true → (∀ i, (s.cpus i).loc = .leaving ∨ (s.cpus i).loc = .stopped) →
      ∀ p, s.executed p = cfg.text p) := by
  refine ⟨reached.exclusive, fun p => (reached.loaded p).executed, ?_, ?_⟩
  · intro i p here finished labels t later
    exact Sched.queued_eq_zero_iff.mp ((reached.ended here finished).run later).2.1
  · intro done stopped p
    have loaded := reached.loaded p
    have none := reached.places_of_stopped someCpu done stopped p
    have freed : s.freed p = true := by
      apply Bool.eq_true_of_not_eq_false
      intro alive
      have added : (p : ℕ) < s.loader.i := lt_of_lt_of_le p.isLt (reached.flags.all done)
      have one := reached.present small levels p added alive
      omega
    have finished : s.Finished p := ((reached.accounted p).freed freed).2
    rw [Finished, loaded.text] at finished
    rw [loaded.executed, finished, List.take_length]

/-- The threads take turns of several steps. -/
def turns (steps : List (Label c × ℕ)) : List (Label c) := steps.flatMap fun turn => List.replicate turn.2 turn.1

/-- A whole run of two processes with two instructions each, when these are the only CPUs. -/
def wholeRun (i j : Fin c) : List (Label c) :=
  turns [(.loader, 4), (.cpu i, 5), (.cpu j, 3), (.timer, 6), (.loader, 5), (.timer, 1), (.cpu j, 6), (.timer, 1),
    (.cpu i, 7), (.timer, 7), (.loader, 3), (.timer, 1), (.cpu j, 7), (.timer, 1), (.cpu i, 5), (.timer, 8),
    (.cpu j, 5), (.timer, 11)]

/-- Two CPUs run two processes to their end and stop. -/
theorem processes_run_once_to_end :
    let cfg := Config.atOnce 16 (fun _ : Fin 2 => List.replicate 2 ⟨.calc, 0, 0, 0, 0⟩) 7
    let env : Env := ⟨.head, fun _ => 0⟩
    ∃ s : Os 2 2, exec cfg env (wholeRun 0 1) = some s ∧
      (s.done, (s.cpus 0).loc, (s.cpus 1).loc) = (true, .stopped, .stopped) ∧ Exclusive s ∧ ∀ p, s.executed p = cfg.text p := by
  intro cfg env
  have computed : (exec cfg env (wholeRun 0 1)).map (fun s : Os 2 2 => (s.done, (s.cpus 0).loc, (s.cpus 1).loc)) =
      some (true, .stopped, .stopped) := by decide +kernel
  obtain ⟨s, reached, values⟩ := Option.map_eq_some_iff.mp computed
  obtain ⟨done, stopped⟩ := Prod.mk.inj values
  obtain ⟨first, second⟩ := Prod.mk.inj stopped
  obtain ⟨exclusive, -, -, ended⟩ := processes_run_once (by decide) (by decide) (by decide) (.of_exec reached)
  refine ⟨s, reached, values, exclusive, ended done fun i => .inr ?_⟩
  obtain rfl | rfl : i = 0 ∨ i = 1 := by omega
  · exact first
  · exact second

end SimpleOS.Model.Os
