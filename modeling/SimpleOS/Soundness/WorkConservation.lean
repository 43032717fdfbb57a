import SimpleOS.Soundness.Completion
import SimpleOS.Soundness.LoadTimes

/-! # No time slot is wasted

After the last process is loaded, some CPU runs a process in every time slot until all of them are freed. A CPU that
finds the queues empty may sleep through a slot, but then the processes are held by other CPUs, and one of those
runs its process, or gives it back and takes another one.
-/

namespace SimpleOS.Model

private theorem Config.loadTime_lt_freeTime {N : ℕ} (cfg : Config N) {i : ℕ} (bound : i < N) :
    cfg.loadTime i < cfg.freeTime N := by
  cases N with
  | zero => omega
  | succ n => exact Nat.lt_succ_of_le (cfg.loadTime_mono (Nat.le_of_lt_succ bound))

namespace Os

open Lib Timer

variable {c N : ℕ} {cfg : Config N} {env : Env} {s t : Os c N} {i : Fin c} {label : Label c} {p : Fin N}

private theorem device_counted {time d : ℕ} {thread : Thread} {dev : Device} (ok : dev.Ok time thread d)
    (attached : dev.fsh = false) : time ≤ dev.startTimes.length ∧ dev.startTimes.length ≤ time + 1 := by
  cases due : thread.due d with
  | true =>
    have count := (ok.due due attached).2
    omega
  | false =>
    have count := ok.count due attached
    have bit := dev.done.toNat_le
    omega

theorem Reachable.onSchedule (reached : Reachable cfg env s) : OnSchedule cfg s := by
  obtain ⟨labels, run⟩ := reached
  induction run with
  | start => exact .init cfg
  | next earlier taken ih => exact ih.step ⟨_, earlier⟩ taken

/-- Past the time of the last addition all processes are loaded. -/
theorem Reachable.all_added (reached : Reachable cfg env s) (loaded : cfg.freeTime N ≤ s.timer.time) :
    s.loader.i = N := by
  have onSchedule := reached.onSchedule
  obtain ⟨-, all, -⟩ | ⟨-, here⟩ := onSchedule.done_cases reached
  · exact all
  · apply Nat.le_antisymm onSchedule.bound
    by_contra missing
    have time := reached.linked.time_le here
    have due := onSchedule.due (Nat.lt_of_not_le missing)
    have last := cfg.loadTime_lt_freeTime (Nat.lt_of_not_le missing)
    omega

/-- When the time goes up, all attached devices have called `next_slot` in this slot. -/
theorem tick_counted (linked : Linked s.timer s.cpus s.loader) {timer : Timer.State (c + 1)}
    (moved : Clock s.timer timer) (ticked : timer.time ≠ s.timer.time) (d : Fin (c + 1))
    (attached : (s.timer.devs d).fsh = false) : timer.time = s.timer.time + 1 ∧
      (s.timer.devs d).phase ≠ .working ∧ (s.timer.devs d).startTimes.length = s.timer.time + 1 := by
  obtain ⟨next, all⟩ := moved.time linked.inv ticked
  have same := moved.same d
  have before := device_counted (linked.inv.device d) attached
  have after := device_counted ((linked.inv.step moved.step).device d) (same.fsh.trans attached)
  rw [same.startTimes] at after
  exact ⟨next, all d attached, by omega⟩

/-- The CPU still has a look at the ready queues before it, or a process to run, in this slot. -/
def Hungry (s : Os c N) (i : Fin c) : Prop :=
  match (s.cpus i).loc with
  | .top _ => True
  | .fetch => True
  | .recheck proc => proc.isSome
  | .run _ => True
  | .slot _ => (s.timer.devs (cpuDev i)).phase ≠ .working ∧
      (s.timer.devs (cpuDev i)).startTimes.length = s.timer.time
  | .leaving => False
  | .stopped => False

theorem Hungry.congr (hungry : s.Hungry i) (cpus : t.cpus i = s.cpus i)
    (device : (s.timer.devs (cpuDev i)).Same (t.timer.devs (cpuDev i))) (time : t.timer.time = s.timer.time) :
    t.Hungry i := by
  rw [Hungry] at hungry ⊢
  rw [cpus, time, device.startTimes, ne_eq, device.working]
  exact hungry

/-- In the current slot some CPU has run a process. -/
def Ran (s : Os c N) (T : ℕ) : Prop := ∃ i, T ∈ (s.cpus i).runTimes

/-- When a process is ready, somebody has run in this slot or is about to look. -/
def Conserves (cfg : Config N) (s : Os c N) : Prop :=
  cfg.freeTime N ≤ s.timer.time → (∃ level, s.sched.mlqReadyQueue level ≠ []) → s.Ran s.timer.time ∨ ∃ i, s.Hungry i

private theorem Conserves.of_hungry (hungry : s.Hungry i) : Conserves cfg s := fun _ _ => .inr ⟨i, hungry⟩

private theorem Conserves.of_empty (empty : ∀ level, s.sched.mlqReadyQueue level = []) : Conserves cfg s := by
  rintro - ⟨level, ready⟩
  exact absurd (empty level) ready

/-- A CPU that is not hungry goes on. -/
private theorem Conserves.go (conserves : Conserves cfg s) (sated : ¬s.Hungry i) (queues : t.sched = s.sched)
    (time : t.timer.time = s.timer.time)
    (others : ∀ j, j ≠ i → t.cpus j = s.cpus j ∧ t.timer.devs (cpuDev j) = s.timer.devs (cpuDev j))
    (runs : (t.cpus i).runTimes = (s.cpus i).runTimes) : Conserves cfg t := by
  intro loaded ready
  rw [time] at loaded ⊢
  rw [queues] at ready
  obtain ⟨j, ran⟩ | ⟨j, hungry⟩ := conserves loaded ready
  · refine .inl ⟨j, ?_⟩
    by_cases own : j = i
    · subst own
      rw [runs]
      exact ran
    · rw [(others j own).1]
      exact ran
  · have other : j ≠ i := by
      rintro rfl
      exact sated hungry
    refine .inr ⟨j, hungry.congr (others j other).1 ?_ time⟩
    rw [(others j other).2]
    exact .refl _

/-- The CPUs stay where they are. -/
theorem Conserves.congr (conserves : Conserves cfg s) (queues : t.sched = s.sched) (cpus : t.cpus = s.cpus)
    (time : t.timer.time = s.timer.time)
    (devices : ∀ j, (s.timer.devs (cpuDev j)).Same (t.timer.devs (cpuDev j))) : Conserves cfg t := by
  intro loaded ready
  rw [time] at loaded ⊢
  rw [queues] at ready
  rw [Ran, cpus]
  obtain ran | ⟨j, hungry⟩ := conserves loaded ready
  · exact .inl ran
  · exact .inr ⟨j, hungry.congr (congrFun cpus j) (devices j) time⟩

theorem look_same {n : ℕ} {timer : Timer.State n} {d : Fin n} (inside : (timer.devs d).phase = .entered)
    (raised : (timer.devs d).done = true) (e : Fin n) : (timer.devs e).Same ((timer.look d).devs e) := by
  apply Timer.State.setDev_same
  exact ⟨rfl, by simp [inside, raised], rfl⟩

private theorem CpuMove.conserves (conserves : Conserves cfg s) (moved : CpuMove cfg env s i t) : Conserves cfg t := by
  have others := fun j (other : j ≠ i) => moved.others other
  cases moved with
  | take empty got => exact .of_hungry (i := i) (by simp [Hungry])
  | idle here got =>
    obtain ⟨empty, same, _⟩ := Sched.getProc_none got
    exact .of_empty fun level => (congrFun same level).trans (empty level)
  | miss here got =>
    obtain ⟨empty, same, _⟩ := Sched.getProc_none got
    exact .of_empty fun level => (congrFun same level).trans (empty level)
  | leave here done => exact conserves.go (i := i) (by simp [Hungry, here]) rfl rfl others (by simp)
  | skip here pending => exact conserves.go (i := i) (by simp [Hungry, here]) rfl rfl others (by simp)
  | detach here => exact conserves.go (i := i) (by simp [Hungry, here]) rfl rfl others (by simp)
  | run here ran => exact fun _ _ => .inl ⟨i, by simp⟩
  | start here outside => exact conserves.go (i := i) (by simp [Hungry, here, outside]) rfl rfl others rfl
  | sleep here inside raised => exact conserves.congr rfl rfl rfl fun j => look_same inside raised _
  | _ => exact .of_hungry (i := i) (by simp [Hungry])

private theorem LoaderMove.conserves (reached : Reachable cfg env s) (conserves : Conserves cfg s)
    (moved : LoaderMove cfg s t) : Conserves cfg t := by
  have devices (j : Fin c) : (s.timer.devs (cpuDev j)).Same (t.timer.devs (cpuDev j)) := by
    rw [(moved.others j).2]
    exact .refl _
  cases moved with
  | @add p here next =>
    -- the last process is loaded before the slot begins
    intro loaded
    have all := reached.all_added loaded
    have inside := p.isLt
    omega
  | _ => exact conserves.congr rfl rfl rfl devices

/-- When a slot begins, all CPUs that have not left are hungry. -/
private theorem Conserves.clock (reached : Reachable cfg env s) (someCpu : 0 < c) (conserves : Conserves cfg s)
    {timer : Timer.State (c + 1)} (moved : Clock s.timer timer) : Conserves cfg { s with timer } := by
  by_cases same : timer.time = s.timer.time
  · exact conserves.congr rfl rfl same fun j => moved.same _
  · have linked := reached.linked
    rintro - ready
    -- some CPU is left to serve the queues
    have left : ∃ i, (s.cpus i).loc ≠ .stopped := by
      obtain ⟨i, there⟩ | waits := reached.served someCpu ready
      · exact ⟨i, fun stopped => there (.inr (.inr stopped))⟩
      · have pending : s.done = false := by
          apply Bool.eq_false_iff.mpr
          intro done
          obtain here | here := reached.flags.loader.mp done <;> simp [waits.1] at here
        exact ⟨⟨0, someCpu⟩, (reached.flags.running pending _).2⟩
    obtain ⟨i, here⟩ := left
    have attached := (linked.cpu i).attached here
    obtain ⟨next, waiting, counted⟩ := tick_counted linked moved same _ attached
    obtain ⟨proc, slot⟩ := (linked.cpu i).phase waiting
    have device := moved.same (cpuDev i)
    refine .inr ⟨i, ?_⟩
    rw [Hungry]
    simp only [slot]
    exact ⟨fun working => waiting (device.working.mp working), by rw [device.startTimes, counted, next]⟩

private theorem Reachable.conserves (someCpu : 0 < c) (reached : Reachable cfg env s) : Conserves cfg s := by
  apply Reachable.keeps (Conserves cfg) reached (.of_empty fun _ => rfl)
  intro now label after before conserves moved
  cases moved with
  | clock moved => exact conserves.clock before someCpu moved
  | cpu moved => exact moved.conserves conserves
  | loader moved => exact moved.conserves before conserves
  | stop stopped finished => exact conserves

/-- A CPU that sleeps with its process has run it in the slot of its last call of `next_slot`, or in the present one
if that call is ahead. -/
def RanLast (dev : Device) (cpu : Cpu (Fin N)) : Prop :=
  ∀ p, cpu.loc = .slot (some p) →
    (dev.phase = .working → dev.startTimes.length ∈ cpu.runTimes) ∧
    (dev.phase ≠ .working → ∀ T, dev.startTimes.length = T + 1 → T ∈ cpu.runTimes)

theorem RanLast.congr {dev dev' : Device} {cpu : Cpu (Fin N)} (ran : RanLast dev cpu) (same : dev.Same dev') :
    RanLast dev' cpu := by
  intro p here
  rw [ne_eq, same.working, same.startTimes]
  exact ran p here

private theorem RanLast.elsewhere {dev : Device} {cpu : Cpu (Fin N)} (here : ∀ p, cpu.loc ≠ .slot (some p)) :
    RanLast dev cpu :=
  fun p slot => absurd slot (here p)

private theorem CpuMove.ranLast (linked : Linked s.timer s.cpus s.loader)
    (ran : RanLast (s.timer.devs (cpuDev i)) (s.cpus i)) (moved : CpuMove cfg env s i t) :
    RanLast (t.timer.devs (cpuDev i)) (t.cpus i) := by
  cases moved with
  | run here completed =>
    have own := linked.cpu i
    have attached := own.attached (by simp [here])
    have outside := own.outside (by simp [here])
    have ok := linked.inv.device (cpuDev i)
    have now := (ok.started attached (ok.working outside attached)).2
    intro p slot
    simp only [setCpu_cpus_self, setCpu_timer, now, outside, ne_eq, not_true_eq_false, false_implies, and_true]
    exact fun _ => List.mem_append_right _ (List.mem_singleton_self _)
  | start here outside =>
    intro p slot
    have before := (ran p slot).1 outside
    simp only [Timer.State.start, Timer.State.setDev, Function.update_self, reduceCtorEq, false_implies, ne_eq,
      not_false_eq_true, forall_const, List.length_append, List.length_singleton, Nat.add_right_cancel_iff, true_and]
    rintro T rfl
    exact before
  | sleep here inside raised => exact ran.congr (look_same inside raised _)
  | _ => exact .elsewhere (by simp)

theorem Reachable.ranLast (reached : Reachable cfg env s) (i : Fin c) : RanLast (s.timer.devs (cpuDev i)) (s.cpus i) := by
  apply Reachable.keeps (fun s => RanLast (s.timer.devs (cpuDev i)) (s.cpus i)) reached (.elsewhere (by simp [Os.init]))
  intro now label after before ran moved
  cases moved with
  | clock moved => exact ran.congr (moved.same _)
  | @cpu j _ moved =>
    by_cases own : i = j
    · subst own
      exact moved.ranLast before.linked ran
    · obtain ⟨cpus, devices⟩ := moved.others own
      rw [cpus, devices]
      exact ran
  | loader moved =>
    obtain ⟨cpus, devices⟩ := moved.others i
    rw [cpus, devices]
    exact ran
  | stop stopped finished => exact ran

/-- All processes are freed. -/
def AllFreed (s : Os c N) : Prop := ∀ p, s.freed p = true

/-- When the time goes up after loading, some CPU has run in the slot, or nothing is left to run. -/
private theorem ran_at_tick (small : N ≤ maxQueueSize) (levels : ∀ p, cfg.level p < maxPrio) (someCpu : 0 < c)
    (reached : Reachable cfg env s) {timer : Timer.State (c + 1)} (moved : Clock s.timer timer)
    (ticked : timer.time ≠ s.timer.time) (loaded : cfg.freeTime N ≤ s.timer.time) :
    s.Ran s.timer.time ∨ s.AllFreed := by
  have linked := reached.linked
  by_cases ran : s.Ran s.timer.time
  · exact .inl ran
  · refine .inr fun p => ?_
    have slots (i : Fin c) (here : (s.cpus i).loc ≠ .stopped) : ∃ proc, (s.cpus i).loc = .slot proc ∧
        (s.timer.devs (cpuDev i)).phase ≠ .working ∧
        (s.timer.devs (cpuDev i)).startTimes.length = s.timer.time + 1 := by
      obtain ⟨-, waiting, counted⟩ := tick_counted linked moved ticked _ ((linked.cpu i).attached here)
      obtain ⟨proc, slot⟩ := (linked.cpu i).phase waiting
      exact ⟨proc, slot, waiting, counted⟩
    have sated (i : Fin c) : ¬s.Hungry i := by
      by_cases here : (s.cpus i).loc = .stopped
      · simp [Hungry, here]
      · obtain ⟨proc, slot, -, counted⟩ := slots i here
        simp [Hungry, slot, counted]
    have empty (level : Fin maxPrio) : s.sched.mlqReadyQueue level = [] := by
      by_contra ready
      obtain now | ⟨i, hungry⟩ := reached.conserves someCpu loaded ⟨level, ready⟩
      · exact ran now
      · exact sated i hungry
    have idle (i : Fin c) : (s.cpus i).loc.proc ≠ some p := by
      intro holds
      by_cases here : (s.cpus i).loc = .stopped
      · rw [here] at holds
        cases holds
      · obtain ⟨proc, slot, waiting, counted⟩ := slots i here
        rw [slot] at holds
        obtain rfl : proc = some p := holds
        exact ran ⟨i, (reached.ranLast i p slot).2 waiting _ counted⟩
    have nowhere : s.places p = 0 := by
      rw [places, held_eq_zero_iff.mpr idle, Sched.queued_eq_zero_iff.mpr]
      intro level
      simp [empty level]
    have added : (p : ℕ) < s.loader.i := by
      rw [reached.all_added loaded]
      exact p.isLt
    apply Bool.eq_true_of_not_eq_false
    intro alive
    have one := reached.present small levels p added alive
    omega

/-- A freed process stays freed, and recorded slots stay recorded. -/
theorem Move.records (moved : Move cfg env s label t) :
    (∀ p, s.freed p = true → t.freed p = true) ∧ ∀ T, s.Ran T → t.Ran T := by
  have others {t : Os c N} {i : Fin c} {cpu : Cpu (Fin N)} (changed : t.cpus = Function.update s.cpus i cpu)
      (runs : ∀ T ∈ (s.cpus i).runTimes, T ∈ cpu.runTimes) (T : ℕ) : s.Ran T → t.Ran T := by
    rintro ⟨j, ran⟩
    refine ⟨j, ?_⟩
    rw [changed]
    by_cases own : j = i
    · subst own
      rw [Function.update_self]
      exact runs T ran
    · rw [Function.update_of_ne own]
      exact ran
  cases moved with
  | clock moved => exact ⟨fun _ => id, fun _ => id⟩
  | cpu moved =>
    cases moved with
    | @retire p here finished =>
      refine ⟨fun q freed => ?_, others rfl fun _ => id⟩
      by_cases own : q = p
      · subst own
        exact Function.update_self ..
      · exact (Function.update_of_ne own _ _).trans freed
    | run here ran => exact ⟨fun _ => id, others rfl fun _ member => List.mem_append_left _ member⟩
    | start here outside => exact ⟨fun _ => id, fun _ => id⟩
    | sleep here inside raised => exact ⟨fun _ => id, fun _ => id⟩
    | _ => exact ⟨fun _ => id, others rfl fun _ => id⟩
  | loader moved => cases moved <;> exact ⟨fun _ => id, fun _ => id⟩
  | stop stopped finished => exact ⟨fun _ => id, fun _ => id⟩

/-- In every past slot after loading some CPU has run a process, unless all processes are freed. -/
theorem Reachable.worked (small : N ≤ maxQueueSize) (levels : ∀ p, cfg.level p < maxPrio) (someCpu : 0 < c)
    (reached : Reachable cfg env s) :
    ∀ T, cfg.freeTime N ≤ T → T < s.timer.time → s.Ran T ∨ s.AllFreed := by
  apply Reachable.keeps (fun s => ∀ T, cfg.freeTime N ≤ T → T < s.timer.time → s.Ran T ∨ s.AllFreed) reached
  · intro T _ past
    cases past
  · intro now label after before worked moved T loaded past
    obtain ⟨freed, ran⟩ := moved.records
    by_cases earlier : T < now.timer.time
    · obtain done | all := worked T loaded earlier
      · exact .inl (ran T done)
      · exact .inr fun p => freed p (all p)
    · -- the step is the one that ends the slot
      have ticked : after.timer.time ≠ now.timer.time := by omega
      cases moved with
      | @clock _ timer moved =>
        obtain ⟨next, -⟩ := moved.time before.linked.inv ticked
        have late : T < timer.time := past
        obtain rfl : T = now.timer.time := by omega
        obtain done | all := ran_at_tick small levels someCpu before moved ticked loaded
        · exact .inl (ran _ done)
        · exact .inr fun p => freed p (all p)
      | cpu moved => cases moved <;> exact absurd rfl ticked
      | loader moved => cases moved <;> exact absurd rfl ticked
      | stop stopped finished => exact absurd rfl ticked

end Os

end SimpleOS.Model
