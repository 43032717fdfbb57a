import SimpleOS.Proofs.Threads

/-! # The time slots of the simulator

Every thread sees a time that is its own count of slots. The count of a device changes only with its own
calls of `next_slot`, so the time stands still while it works, and no CPU calls `run` twice in a slot.
-/

namespace SimpleOS.Model.Os

open Lib Timer

variable {c N : ℕ} {cfg : Config N} {env : Env} {s t : Os c N} {i : Fin c} {label : Label c}

/-- A CPU calls `run` at most once before each of its calls of `next_slot`. -/
structure Paced (dev : Device) (cpu : Cpu (Fin N)) : Prop where
  increasing : cpu.runTimes.Pairwise (· < ·)
  past : ∀ x ∈ cpu.runTimes, x < dev.startTimes.length ∨
    (x = dev.startTimes.length ∧ dev.phase = .working ∧ ∃ proc, cpu.loc = .slot proc)

/-- Outside `next_slot` all calls of `run` lie in slots that are over. -/
private theorem Paced.before {dev : Device} {cpu : Cpu (Fin N)} (paced : Paced dev cpu)
    (outside : ∀ proc, cpu.loc ≠ .slot proc) : ∀ x ∈ cpu.runTimes, x < dev.startTimes.length := by
  intro x member
  obtain before | ⟨_, _, proc, here⟩ := paced.past x member
  · exact before
  · exact absurd here (outside proc)

private theorem Paced.entered {dev : Device} {cpu : Cpu (Fin N)} (paced : Paced dev cpu)
    (inside : dev.phase = .entered) : ∀ x ∈ cpu.runTimes, x < dev.startTimes.length := by
  intro x member
  obtain before | ⟨_, outside, _⟩ := paced.past x member
  · exact before
  · rw [inside] at outside
    cases outside

/-- A CPU goes on without a call of `run`. -/
private theorem Paced.go {dev dev' : Device} {cpu cpu' : Cpu (Fin N)} (paced : Paced dev cpu)
    (before : ∀ x ∈ cpu.runTimes, x < dev.startTimes.length) (starts : dev'.startTimes = dev.startTimes)
    (runs : cpu'.runTimes = cpu.runTimes) : Paced dev' cpu' where
  increasing := by rw [runs]; exact paced.increasing
  past x member := .inl (by rw [starts]; exact before x (runs ▸ member))

private theorem CpuMove.paced (linked : Linked s.timer s.cpus s.loader)
    (paced : Paced (s.timer.devs (cpuDev i)) (s.cpus i)) (moved : CpuMove cfg env s i t) :
    Paced (t.timer.devs (cpuDev i)) (t.cpus i) := by
  have own := linked.cpu i
  have ok := linked.inv.device (cpuDev i)
  cases moved with
  | take empty got =>
    have outside : ∀ proc, (s.cpus i).loc ≠ .slot proc := by obtain here | here := empty <;> simp [here]
    exact paced.go (paced.before outside) rfl (by simp)
  | idle here got => exact paced.go (paced.before (by simp [here])) rfl (by simp)
  | miss here got => exact paced.go (paced.before (by simp [here])) rfl (by simp)
  | retire here finished => exact paced.go (paced.before (by simp [here])) rfl (by simp)
  | put here unfinished spent => exact paced.go (paced.before (by simp [here])) rfl (by simp)
  | keep here unfinished left => exact paced.go (paced.before (by simp [here])) rfl (by simp)
  | leave here done => exact paced.go (paced.before (by simp [here])) rfl (by simp)
  | skip here pending => exact paced.go (paced.before (by simp [here])) rfl (by simp)
  | dispatch here => exact paced.go (paced.before (by simp [here])) rfl (by simp)
  | run here ran =>
    have outside := own.outside (by simp [here])
    have attached := own.attached (by simp [here])
    have started := (ok.started attached (ok.working outside attached)).2
    have before := paced.before (by simp [here])
    constructor
    · simp only [setCpu, Function.update_self, List.pairwise_append, List.pairwise_singleton, true_and]
      refine ⟨paced.increasing, fun x member y last => ?_⟩
      rw [List.mem_singleton.mp last, ← started]
      exact before x member
    · simp only [setCpu, Function.update_self, List.mem_append, List.mem_singleton]
      rintro x (member | rfl)
      · exact .inl (before x member)
      · exact .inr ⟨started.symm, outside, _, rfl⟩
  | start here outside =>
    refine ⟨paced.increasing, fun x member => .inl ?_⟩
    have bound : x ≤ (s.timer.devs (cpuDev i)).startTimes.length := by
      obtain before | ⟨last, _⟩ := paced.past x member <;> omega
    simpa [Timer.State.start, Timer.State.setDev] using Nat.lt_succ_of_le bound
  | sleep here inside raised =>
    exact paced.go (paced.entered inside) (by simp [Timer.State.look, Timer.State.setDev]) rfl
  | wakeUp here inside released =>
    exact paced.go (paced.entered inside) (by simp [Timer.State.look, Timer.State.setDev]) (by simp)
  | detach here =>
    exact paced.go (paced.before (by simp [here])) (by simp [Timer.State.detach, Timer.State.setDev])
      (by simp)

theorem Paced.congr {dev dev' : Device} {cpu : Cpu (Fin N)} (paced : Paced dev cpu) (same : dev.Same dev') :
    Paced dev' cpu where
  increasing := paced.increasing
  past x member := by rw [same.startTimes, same.working]; exact paced.past x member

theorem Reachable.paced (reached : Reachable cfg env s) (i : Fin c) :
    Paced (s.timer.devs (cpuDev i)) (s.cpus i) := by
  refine Reachable.keeps (fun s => Paced (s.timer.devs (cpuDev i)) (s.cpus i)) reached ?_ ?_
  · exact ⟨.nil, by simp [Os.init]⟩
  · intro now label after before paced moved
    cases moved with
    | clock moved => exact paced.congr (moved.same _)
    | @cpu j _ moved =>
      by_cases here : i = j
      · subst here
        exact moved.paced before.linked paced
      · obtain ⟨cpu, dev⟩ := moved.others here
        rw [cpu, dev]
        exact paced
    | loader moved =>
      obtain ⟨cpus, dev⟩ := moved.others i
      rw [cpus, dev]
      exact paced
    | stop stopped finished => exact paced

/-- What the barrier gives a device: its slot count is the time whenever `done` is lowered, in particular
while it works; in `next_slot` it is at most one ahead; its calls start at the times 0, 1, 2, …; and
whoever sleeps on a condition variable is still to be signalled. -/
structure OnTime (timer : Timer.State (c + 1)) (d : Fin (c + 1)) : Prop where
  lowered : (timer.devs d).fsh = false → (timer.devs d).done = false →
    (timer.devs d).startTimes.length = timer.time
  working : (timer.devs d).fsh = false → (timer.devs d).phase = .working → (timer.devs d).done = false
  waiting : (timer.devs d).phase ≠ .working →
    (timer.devs d).startTimes.length = timer.time ∨ (timer.devs d).startTimes.length = timer.time + 1
  everySlot : (timer.devs d).startTimes = List.range (timer.devs d).startTimes.length
  asleep : (timer.devs d).phase = .asleep → (timer.devs d).done = true ∧ timer.thread ≠ .exited
  awaited : ∀ fsh event, timer.thread = .asleep d fsh event →
    (timer.devs d).done = false ∧ (timer.devs d).fsh = false

theorem OnTime.of_inv {timer : Timer.State (c + 1)} (inv : Inv timer) (d : Fin (c + 1)) : OnTime timer d := by
  have ok := inv.device d
  constructor
  · exact fun attached lowered => (ok.started attached lowered).2
  · exact fun attached outside => ok.working outside attached
  · intro inside
    have attached := ok.attached inside
    cases due : timer.thread.due d with
    | true => exact .inl (ok.due due attached).2
    | false =>
      rw [ok.count due attached]
      cases (timer.devs d).done <;> simp
  · exact ok.times
  · intro asleep
    refine ⟨ok.asleep asleep, fun exited => ?_⟩
    have counts := inv.counts
    rw [exited] at counts
    have attached := ok.attached (by rw [asleep]; nofun)
    rw [counts d] at attached
    cases attached
  · exact ok.awaited

/-- The time changes by one, and only while every attached device waits in `next_slot`. -/
theorem time_step (reached : Reachable cfg env s) (taken : Step cfg env s label t)
    (ticked : t.timer.time ≠ s.timer.time) : t.timer.time = s.timer.time + 1 ∧
      ∀ d, (s.timer.devs d).fsh = false → (s.timer.devs d).phase ≠ .working := by
  cases Step.move taken with
  | clock moved => exact moved.time reached.linked.inv ticked
  | cpu moved => cases moved <;> exact absurd rfl ticked
  | loader moved => cases moved <;> exact absurd rfl ticked
  | stop stopped finished => exact absurd rfl ticked

/-- In every reachable state every device is on time, a step that advances the time finds all attached
devices in `next_slot`, and the calls of `run` of each CPU lie in different slots. -/
theorem timer_barrier (reached : Reachable cfg env s) :
    (∀ d, OnTime s.timer d) ∧
    (∀ label t, Step cfg env s label t → t.timer.time ≠ s.timer.time →
      t.timer.time = s.timer.time + 1 ∧
        ∀ d, (s.timer.devs d).fsh = false → (s.timer.devs d).phase ≠ .working) ∧
    ∀ i, (s.cpus i).runTimes.Pairwise (· < ·) := by
  refine ⟨fun d => .of_inv reached.linked.inv d, fun label t taken ticked => time_step reached taken ticked,
    fun i => (reached.paced i).increasing⟩

/-- The timer has released the loader, and the CPU is still asleep with its flag of the last slot. -/
theorem timer_barrier_after_release :
    let cfg := Config.atOnce 16 (fun _ : Fin 1 => [⟨.calc, 0, 0, 0, 0⟩]) 0
    let env : Env := ⟨.head, fun _ => 0⟩
    ∃ s : Os 1 1, exec cfg env [.loader, .loader, .cpu 0, .cpu 0, .cpu 0, .timer, .timer, .loader, .loader,
        .cpu 0, .cpu 0, .timer, .timer, .timer, .timer] = some s ∧
      (s.timer.time, (s.timer.devs 0).done, (s.timer.devs 1).done, (s.cpus 0).runTimes) =
        (1, false, true, [0]) ∧
      (∀ d, OnTime s.timer d) ∧ (s.cpus 0).runTimes.Pairwise (· < ·) := by
  intro cfg env
  have computed : (exec cfg env [.loader, .loader, .cpu 0, .cpu 0, .cpu 0, .timer, .timer, .loader, .loader,
      .cpu 0, .cpu 0, .timer, .timer, .timer, .timer]).map (fun s : Os 1 1 =>
        (s.timer.time, (s.timer.devs 0).done, (s.timer.devs 1).done, (s.cpus 0).runTimes)) =
      some (1, false, true, [0]) := by decide +kernel
  obtain ⟨s, reached, values⟩ := Option.map_eq_some_iff.mp computed
  obtain ⟨onTime, _, paced⟩ := timer_barrier (.of_exec reached)
  exact ⟨s, reached, values, onTime, paced 0⟩

end SimpleOS.Model.Os
