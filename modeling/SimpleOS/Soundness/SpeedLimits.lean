import SimpleOS.Soundness.Makespan

/-! # How fast the simulator can be

A CPU runs one process in a slot and then sleeps with it until the next one. So a process, wherever it moves, is
executed at most once in each slot from its load time on, and no schedule beats the number of CPUs.
-/

namespace SimpleOS.Model.Os

open Lib Timer

variable {c N : ℕ} {cfg : Config N} {env : Env} {s t : Os c N} {i : Fin c} {label : Label c} {p q : Fin N}

/-- A CPU in `next_slot` waits for the time to go up. -/
def Through (s : Os c N) (i : Fin c) : Prop :=
  (s.timer.devs (cpuDev i)).phase = .working ∨ (s.timer.devs (cpuDev i)).startTimes.length = s.timer.time + 1

instance (s : Os c N) (i : Fin c) : Decidable (s.Through i) := inferInstanceAs (Decidable (_ ∨ _))

/-- CPU `i` has run the process in the current slot. -/
def ThroughOn (s : Os c N) (p : Fin N) (i : Fin c) : Prop := (s.cpus i).loc = .slot (some p) ∧ s.Through i

/-- One instruction for each slot since the process was loaded. -/
structure Limited (cfg : Config N) (p : Fin N) (s : Os c N) : Prop where
  unborn : s.loader.i ≤ p → (s.mem.procs p).pc = 0
  before : p < s.loader.i → (∀ i, ¬s.ThroughOn p i) → cfg.loadTime p + (s.mem.procs p).pc ≤ s.timer.time
  within : p < s.loader.i → cfg.loadTime p + (s.mem.procs p).pc ≤ s.timer.time + 1

theorem Through.congr (time : t.timer.time = s.timer.time)
    (device : (s.timer.devs (cpuDev i)).Same (t.timer.devs (cpuDev i))) : t.Through i ↔ s.Through i := by
  rw [Through, Through, time, device.working, device.startTimes]

private theorem through_start {proc : Option (Fin N)} (linked : Linked s.timer s.cpus s.loader)
    (here : (s.cpus i).loc = .slot proc) (outside : (s.timer.devs (cpuDev i)).phase = .working) :
    ({ s with timer := s.timer.start (cpuDev i) } : Os c N).Through i := by
  have attached := (linked.cpu i).attached (by simp [here])
  have ok := linked.inv.device (cpuDev i)
  have now := (ok.started attached (ok.working outside attached)).2
  refine .inr ?_
  simp [Timer.State.start, Timer.State.setDev, now]

theorem not_through {proc : Option (Fin N)} (linked : Linked s.timer s.cpus s.loader)
    (here : (s.cpus i).loc = .slot proc) (inside : (s.timer.devs (cpuDev i)).phase = .entered)
    (released : (s.timer.devs (cpuDev i)).done = false) : ¬s.Through i := by
  have attached := (linked.cpu i).attached (by simp [here])
  have now := ((linked.inv.device (cpuDev i)).started attached released).2
  rintro (outside | ahead)
  · rw [inside] at outside
    cases outside
  · omega

/-- When the time goes up, every CPU that has not left is through, and then no more. -/
theorem through_at_tick (linked : Linked s.timer s.cpus s.loader) {timer : Timer.State (c + 1)}
    (moved : Clock s.timer timer) (ticked : timer.time ≠ s.timer.time) (here : (s.cpus i).loc ≠ .stopped) :
    ∃ proc, (s.cpus i).loc = .slot proc ∧ s.Through i ∧ ¬({ s with timer } : Os c N).Through i := by
  obtain ⟨next, waiting, counted⟩ := tick_counted linked moved ticked _ ((linked.cpu i).attached here)
  obtain ⟨proc, slot⟩ := (linked.cpu i).phase waiting
  refine ⟨proc, slot, .inr counted, ?_⟩
  have device := moved.same (cpuDev i)
  rintro (outside | ahead)
  · exact waiting (device.working.mp outside)
  · rw [device.startTimes, counted, next] at ahead
    omega

theorem ThroughOn.congr (cpus : t.cpus i = s.cpus i) (time : t.timer.time = s.timer.time)
    (device : (s.timer.devs (cpuDev i)).Same (t.timer.devs (cpuDev i))) : t.ThroughOn p i ↔ s.ThroughOn p i := by
  rw [ThroughOn, ThroughOn, cpus, Through.congr time device]

/-- No instruction is executed, and whoever was through still is. -/
private theorem Limited.go (limited : Limited cfg p s) (mem : t.mem = s.mem) (loader : t.loader.i = s.loader.i)
    (time : t.timer.time = s.timer.time) (through : ∀ i, s.ThroughOn p i → t.ThroughOn p i) : Limited cfg p t where
  unborn later := by rw [mem]; exact limited.unborn (loader ▸ later)
  before added away := by
    rw [mem, time]
    exact limited.before (loader ▸ added) fun i here => away i (through i here)
  within added := by rw [mem, time]; exact limited.within (loader ▸ added)

theorem Limited.run (reached : Reachable cfg env s) (limited : Limited cfg p s) (here : (s.cpus i).loc = .run q)
    {mem : Machine (Fin N)} {status : Int} (ran : s.mem.run env s.sched.runningList q = .ok (mem, status))
    (cpus : t.cpus =
      Function.update s.cpus i ⟨.slot (some q), (s.cpus i).timeLeft - 1, (s.cpus i).runTimes ++ [s.timer.time]⟩)
    (timer : t.timer = s.timer) (loader : t.loader = s.loader) (stored : t.mem = mem) : Limited cfg p t := by
  have outside := (reached.linked.cpu i).outside (by simp [here])
  have after : t.ThroughOn q i := by
    rw [ThroughOn, Through, cpus, timer, Function.update_self]
    exact ⟨rfl, .inl outside⟩
  have others (j : Fin c) (other : j ≠ i) : t.ThroughOn p j ↔ s.ThroughOn p j := by
    rw [ThroughOn, ThroughOn, Through, Through, timer, cpus, Function.update_of_ne other]
  by_cases own : p = q
  · subst own
    have holds : (s.cpus i).loc.proc = some p := by rw [here]; rfl
    have added : (p : ℕ) < s.loader.i := by
      by_contra later
      have none := ((reached.accounted p).unborn (Nat.le_of_not_lt later)).1
      have one := one_le_places holds
      omega
    have away (j : Fin c) : ¬s.ThroughOn p j := by
      rintro ⟨slot, -⟩
      have same := (reached.accounted p).holder_unique (j := j) holds (by rw [slot]; rfl)
      subst same
      rw [here] at slot
      cases slot
    have spent := limited.before added away
    have pc : (t.mem.procs p).pc ≤ (s.mem.procs p).pc + 1 := by
      rw [stored]
      obtain ⟨_, same⟩ | ⟨ins, next, headers⟩ := Machine.run_header ran
      · rw [same]
        exact Nat.le_succ _
      · have header := headers p
        rw [if_pos rfl] at header
        exact (Header.mk.inj header).2.2.2.le
    refine ⟨fun later => ?_, fun _ left => absurd after (left i), fun _ => ?_⟩
    · rw [loader] at later
      omega
    · rw [timer]
      omega
  · have pc : (t.mem.procs p).pc = (s.mem.procs p).pc := by
      rw [stored]
      obtain ⟨_, same⟩ | ⟨ins, next, headers⟩ := Machine.run_header ran
      · rw [same]
      · have header := headers p
        rw [if_neg own] at header
        exact (Header.mk.inj header).2.2.2
    refine ⟨?_, ?_, ?_⟩
    · rw [pc, loader]
      exact limited.unborn
    · rw [pc, loader, timer]
      intro added away
      refine limited.before added fun j through => ?_
      by_cases same : j = i
      · subst same
        rw [ThroughOn, here] at through
        cases through.1
      · exact away j ((others j same).mpr through)
    · rw [pc, loader, timer]
      exact limited.within

private theorem CpuMove.limited (reached : Reachable cfg env s) (limited : Limited cfg p s)
    (moved : CpuMove cfg env s i t) : Limited cfg p t := by
  have linked := reached.linked
  have elsewhere (j : Fin c) (other : j ≠ i) (time : t.timer.time = s.timer.time) :
      s.ThroughOn p j → t.ThroughOn p j := by
    obtain ⟨cpus, devices⟩ := moved.others other
    exact (ThroughOn.congr cpus time (by rw [devices]; exact .refl _)).mpr
  -- only a CPU in `next_slot` can be through
  have away (here : (s.cpus i).loc ≠ .slot (some p)) (mem : t.mem = s.mem) (loader : t.loader.i = s.loader.i)
      (time : t.timer.time = s.timer.time) : Limited cfg p t := by
    refine limited.go mem loader time fun j through => ?_
    by_cases own : j = i
    · subst own
      exact absurd through.1 here
    · exact elsewhere j own time through
  have inside (mem : t.mem = s.mem) (loader : t.loader.i = s.loader.i) (time : t.timer.time = s.timer.time)
      (still : s.ThroughOn p i → t.ThroughOn p i) : Limited cfg p t := by
    refine limited.go mem loader time fun j through => ?_
    by_cases own : j = i
    · subst own
      exact still through
    · exact elsewhere j own time through
  cases moved with
  | take empty got => exact away (by obtain here | here := empty <;> simp [here]) rfl rfl rfl
  | run here ran => exact limited.run reached here ran rfl rfl rfl rfl
  | start here outside =>
    exact inside rfl rfl rfl fun through => ⟨through.1, through_start linked here outside⟩
  | sleep here within raised =>
    exact inside rfl rfl rfl ((ThroughOn.congr (by rfl) (by rfl) (look_same within raised _)).mpr)
  | wakeUp here within released =>
    exact inside rfl rfl rfl fun through => absurd through.2 (not_through linked here within released)
  | _ => exact away (by simp_all) rfl rfl rfl

private theorem LoaderMove.limited (reached : Reachable cfg env s) (limited : Limited cfg p s)
    (moved : LoaderMove cfg s t) : Limited cfg p t := by
  have through (j : Fin c) (time : t.timer.time = s.timer.time) : t.ThroughOn p j ↔ s.ThroughOn p j := by
    obtain ⟨cpus, devices⟩ := moved.others j
    exact ThroughOn.congr (congrFun cpus j) time (by rw [devices]; exact .refl _)
  cases moved with
  | @add q here next =>
    obtain ⟨bound, start⟩ := reached.onSchedule.adding here
    have free := reached.onSchedule.free
    have time := reached.linked.loader_time (by simp [here]) (by simp [here])
    have split := cfg.loadTime_eq s.loader.i
    have added (earlier : (p : ℕ) < s.loader.i + 1) (away : ∀ j, ¬s.ThroughOn p j) :
        cfg.loadTime p + (s.mem.procs p).pc ≤ s.timer.time := by
      obtain before | now := Nat.lt_succ_iff_lt_or_eq.mp earlier
      · exact limited.before before away
      · have pc := limited.unborn now.ge
        rw [now, pc]
        omega
    refine ⟨fun later => limited.unborn (Nat.le_of_succ_le later), fun earlier away => ?_, fun earlier => ?_⟩
    · exact added earlier fun j here => away j ((through j rfl).mpr here)
    · obtain before | now := Nat.lt_succ_iff_lt_or_eq.mp earlier
      · exact limited.within before
      · have pc := limited.unborn now.ge
        change cfg.loadTime p + (s.mem.procs p).pc ≤ s.timer.time + 1
        rw [now, pc]
        omega
  | _ => exact limited.go rfl rfl rfl fun j => (through j rfl).mpr

private theorem Limited.clock (reached : Reachable cfg env s) (limited : Limited cfg p s) {timer : Timer.State (c + 1)}
    (moved : Clock s.timer timer) : Limited cfg p { s with timer } := by
  by_cases same : timer.time = s.timer.time
  · exact limited.go rfl rfl same fun i => (ThroughOn.congr (by rfl) same (moved.same _)).mpr
  · obtain ⟨next, -⟩ := moved.time reached.linked.inv same
    refine ⟨limited.unborn, fun added _ => ?_, fun added => ?_⟩
    · exact next ▸ limited.within added
    · exact (limited.within added).trans (by simp only [next]; omega)

private theorem Reachable.limited (reached : Reachable cfg env s) (p : Fin N) : Limited cfg p s := by
  apply Reachable.keeps (Limited cfg p) reached
  · exact ⟨fun _ => rfl, fun added => absurd added (Nat.not_lt_zero _), fun added => absurd added (Nat.not_lt_zero _)⟩
  · intro now label after before limited moved
    cases moved with
    | clock moved => exact limited.clock before moved
    | cpu moved => exact moved.limited before limited
    | loader moved => exact moved.limited before limited
    | stop stopped finished => exact limited.go rfl rfl rfl fun _ => id

/-- No call of `run` is ahead of the time. -/
private theorem Reachable.runTimes_le (reached : Reachable cfg env s) (i : Fin c) : ∀ T ∈
    (s.cpus i).runTimes, T ≤ s.timer.time := by
  obtain ⟨labels, run⟩ := reached
  induction run with
  | start => exact fun T member => by cases member
  | @next _ now after label earlier taken ih =>
    have later := time_le ⟨_, earlier⟩ taken
    have stays (same : (after.cpus i).runTimes = (now.cpus i).runTimes) :
        ∀ T ∈ (after.cpus i).runTimes, T ≤ after.timer.time := by
      intro T member
      rw [same] at member
      exact (ih T member).trans later
    cases Step.move taken with
    | clock moved => exact stays rfl
    | @cpu j _ moved =>
      by_cases own : i = j
      · subst own
        cases moved with
        | run here ran =>
          intro T member
          simp only [setCpu_cpus_self, List.mem_append, List.mem_singleton] at member
          obtain past | rfl := member
          · exact ih T past
          · exact le_rfl
        | start here outside | sleep here inside raised => exact stays rfl
        | _ => exact stays (by simp)
      · exact stays (by rw [(moved.others own).1])
    | loader moved => exact stays (by rw [(moved.others i).1])
    | stop stopped finished => exact stays rfl

/-- No CPU has called `run` in more slots than have begun. -/
private theorem Reachable.cpu_runs_le (reached : Reachable cfg env s) (i : Fin c) :
    (s.cpus i).runTimes.length ≤ s.timer.time + 1 := by
  have distinct : (s.cpus i).runTimes.Nodup := (reached.paced i).increasing.imp Nat.ne_of_lt
  have inside : (s.cpus i).runTimes ⊆ List.range (s.timer.time + 1) := by
    intro T member
    exact List.mem_range.mpr (Nat.lt_succ_of_le (reached.runTimes_le i T member))
  have short := (distinct.subperm inside).length_le
  rwa [List.length_range] at short

/-- A freed process has made all its calls. -/
private theorem AllFreed.work_eq (freed : s.AllFreed) (reached : Reachable cfg env s) : s.runs = cfg.work := by
  rw [reached.balanced, Config.work, tally]
  refine Finset.sum_congr rfl fun p _ => ?_
  have loaded := reached.loaded p
  have finished := ((reached.accounted p).freed (freed p)).2
  rw [Finished, loaded.text] at finished
  rw [id, calls]
  split_ifs with empty spent
  · rw [empty]
    rfl
  · exact absurd (.inl (freed p)) spent
  · have some := List.length_pos_iff.mpr empty
    omega

/-- There are as many slots as each CPU has calls. -/
theorem AllFreed.work_le (freed : s.AllFreed) (reached : Reachable cfg env s) : cfg.work ≤ c * (s.timer.time + 1) := by
  have all : tally List.length (fun i => (s.cpus i).runTimes) ≤ Fintype.card (Fin c) * (s.timer.time + 1) :=
    tally_le reached.cpu_runs_le
  rw [Fintype.card_fin] at all
  exact (freed.work_eq reached).ge.trans all

/-- There are as many slots as a process has executed instructions, and those before its load time. -/
theorem Reachable.executed_le (reached : Reachable cfg env s) (started : s.executed p ≠ []) :
    cfg.loadTime p + (s.executed p).length ≤ s.timer.time + 1 := by
  have limited := reached.limited p
  have loaded := reached.loaded p
  have inside := loaded.pc_le
  have length : (s.executed p).length = (s.mem.procs p).pc := by
    rw [loaded.executed, List.length_take]
    omega
  have some := List.length_pos_iff.mpr started
  have added : (p : ℕ) < s.loader.i := by
    by_contra later
    have none := limited.unborn (Nat.le_of_not_lt later)
    omega
  rw [length]
  exact limited.within added

/-- No process is faster than one instruction a slot from its load time on, whichever CPUs take it; no CPU calls `run`
more than once a slot; so no schedule of the programs ends before each CPU has had its share. -/
theorem speed_limits (reached : Reachable cfg env s) :
    (∀ p, s.executed p ≠ [] → cfg.loadTime p + (s.executed p).length ≤ s.timer.time + 1) ∧
    (∀ i, (s.cpus i).runTimes.length ≤ s.timer.time + 1) ∧
    (s.AllFreed → cfg.work ≤ c * (s.timer.time + 1)) :=
  ⟨fun _ => reached.executed_le, reached.cpu_runs_le, fun freed => freed.work_le reached⟩

/-- Four calls of `run` on two CPUs in five slots. -/
theorem speed_limits_of_two :
    let cfg := Config.atOnce 16 (fun _ : Fin 2 => List.replicate 2 ⟨.calc, 0, 0, 0, 0⟩) 0
    let env : Env := ⟨.head, fun _ => 0⟩
    ∃ s : Os 2 2, exec cfg env (wholeRun 0 1) = some s ∧ s.timer.time = 4 ∧ cfg.work = 4 ∧
      cfg.work ≤ 2 * (s.timer.time + 1) := by
  intro cfg env
  have computed : (exec cfg env (wholeRun 0 1)).map (fun s : Os 2 2 => (s.timer.time, decide (∀ p, s.freed p = true))) =
      some (4, true) := by
    decide +kernel
  obtain ⟨s, reached, values⟩ := Option.map_eq_some_iff.mp computed
  obtain ⟨time, freed⟩ := Prod.mk.inj values
  obtain ⟨-, -, share⟩ := speed_limits (.of_exec reached)
  exact ⟨s, reached, time, by decide, share fun p => of_decide_eq_true freed p⟩

end SimpleOS.Model.Os
