import SimpleOS.Proofs.Places

/-! # Idle CPUs

The test of `done` comes after the `get_proc` of a CPU that has just given up a process. A CPU that starts
its iteration without a process and finds the queues empty goes straight to `next_slot`, so once the work
is over it comes back to the same place for ever.
-/

namespace SimpleOS.Model.Os

open Lib

variable {c N : ℕ} {cfg : Config N} {env : Env} {s t : Os c N} {i j : Fin c} {label : Label c}

/-- All processes are done with: the loader has set `done`, nothing is ready and no CPU holds a
process. -/
structure Quiescent (s : Os c N) : Prop where
  done : s.done = true
  empty : ∀ level, s.sched.mlqReadyQueue level = []
  idle : ∀ i, (s.cpus i).loc.proc = none

/-- The CPU goes round between the loop head and `next_slot`. -/
def Cycling (loc : CpuLoc (Fin N)) : Prop := loc = .top none ∨ loc = .slot none

/-- The CPU has given up a process in this iteration and is on its way to the test of `done`, or has
passed it. -/
def WayOut (loc : CpuLoc (Fin N)) : Prop :=
  loc = .fetch ∨ loc = .recheck none ∨ loc = .leaving ∨ loc = .stopped

private theorem cycling_or_wayOut {loc : CpuLoc (Fin N)} (idle : loc.proc = none) : Cycling loc ∨ WayOut loc := by
  cases loc with
  | top proc =>
    subst idle
    exact .inl (.inl rfl)
  | fetch => exact .inr (.inl rfl)
  | recheck proc =>
    subst idle
    exact .inr (.inr (.inl rfl))
  | run p => cases idle
  | slot proc =>
    subst idle
    exact .inl (.inr rfl)
  | leaving => exact .inr (.inr (.inr (.inl rfl)))
  | stopped => exact .inr (.inr (.inr (.inr rfl)))

/-- The CPU is in a call of `next_slot`, or about to make it. -/
def inSlot : CpuLoc (Fin N) → Bool
  | .slot _ => true
  | _ => false

/-- The calls of `next_slot` that CPU `i` has started, with the one it is about to start. -/
def slotCalls (s : Os c N) (i : Fin c) : ℕ :=
  (s.timer.devs (cpuDev i)).startTimes.length +
    if (s.timer.devs (cpuDev i)).phase = .working ∧ inSlot (s.cpus i).loc then 1 else 0

private theorem WayOut.slotCalls (out : WayOut (s.cpus i).loc) :
    s.slotCalls i = (s.timer.devs (cpuDev i)).startTimes.length := by
  have outside : inSlot (s.cpus i).loc = false := by
    obtain here | here | here | here := out <;> rw [here] <;> rfl
  rw [Os.slotCalls, outside]
  simp

/-- A CPU keeps its way, and on the way out it makes no further call of `next_slot`. -/
structure Steady (i : Fin c) (s t : Os c N) : Prop where
  cycling : Cycling (s.cpus i).loc → Cycling (t.cpus i).loc
  wayOut : WayOut (s.cpus i).loc → WayOut (t.cpus i).loc
  starts : WayOut (s.cpus i).loc →
    (t.timer.devs (cpuDev i)).startTimes = (s.timer.devs (cpuDev i)).startTimes

theorem Steady.refl (i : Fin c) (s : Os c N) : Steady i s s := ⟨id, id, fun _ => rfl⟩

theorem Steady.trans {now : Os c N} (first : Steady i s now) (second : Steady i now t) : Steady i s t where
  cycling := second.cycling ∘ first.cycling
  wayOut := second.wayOut ∘ first.wayOut
  starts out := (second.starts (first.wayOut out)).trans (first.starts out)

/-- The steps a CPU can still take when the work is over. -/
private theorem CpuMove.quiescent (ended : Quiescent s) (moved : CpuMove cfg env s i t) :
    t.sched.mlqReadyQueue = s.sched.mlqReadyQueue ∧ (t.cpus i).loc.proc = none ∧ Steady i s t := by
  have idle := ended.idle i
  cases moved with
  | take empty got =>
    obtain ⟨level, rest, ready, _, _⟩ := Sched.getProc_some got
    rw [ended.empty level] at ready
    cases ready
  | idle here got =>
    refine ⟨(Sched.getProc_none got).2.1, by simp [CpuLoc.proc], ?_, ?_, fun _ => rfl⟩
    · simp [Cycling]
    · simp [WayOut, here]
  | miss here got =>
    refine ⟨(Sched.getProc_none got).2.1, by simp [CpuLoc.proc], ?_, ?_, fun _ => rfl⟩
    · simp [Cycling, here]
    · simp [WayOut]
  | retire here finished => simp [here, CpuLoc.proc] at idle
  | put here unfinished spent => simp [here, CpuLoc.proc] at idle
  | keep here unfinished left => simp [here, CpuLoc.proc] at idle
  | leave here done =>
    refine ⟨rfl, by simp [CpuLoc.proc], ?_, ?_, fun _ => rfl⟩
    · simp [Cycling, here]
    · simp [WayOut]
  | skip here pending =>
    rw [ended.done] at pending
    cases pending
  | dispatch here => simp [here, CpuLoc.proc] at idle
  | run here ran => simp [here, CpuLoc.proc] at idle
  | start here outside => exact ⟨rfl, idle, id, id, by simp [WayOut, here]⟩
  | sleep here inside raised => exact ⟨rfl, idle, id, id, by simp [WayOut, here]⟩
  | @wakeUp proc here inside released =>
    have none : proc = none := by
      rw [here] at idle
      exact idle
    refine ⟨rfl, by simp [CpuLoc.proc, none], ?_, ?_, ?_⟩
    · simp [Cycling, none]
    · simp [WayOut, here]
    · simp [WayOut, here]
  | detach here =>
    refine ⟨rfl, by simp [CpuLoc.proc], ?_, ?_, ?_⟩
    · simp [Cycling, here]
    · simp [WayOut]
    · simp [Timer.State.detach, Timer.State.setDev]

/-- A quiescent state stays so, and every CPU keeps its way. -/
private theorem Move.settled (flags : Flags s) (ended : Quiescent s) (moved : Move cfg env s label t) (j : Fin c) :
    Quiescent t ∧ Steady j s t := by
  cases moved with
  | clock moved =>
    exact ⟨⟨ended.done, ended.empty, ended.idle⟩, id, id, fun _ => (moved.same (cpuDev j)).startTimes⟩
  | @cpu i _ moved =>
    obtain ⟨queues, idle, steady⟩ := moved.quiescent ended
    constructor
    · refine ⟨moved.loader.2.trans ended.done, fun level => (congrFun queues level).trans (ended.empty level), ?_⟩
      intro k
      by_cases here : k = i
      · rw [here]
        exact idle
      · rw [(moved.others here).1]
        exact ended.idle k
    · by_cases here : j = i
      · rw [here]
        exact steady
      · obtain ⟨cpu, dev⟩ := moved.others here
        exact ⟨by rw [cpu]; exact id, by rw [cpu]; exact id, fun _ => by rw [dev]⟩
  | loader moved =>
    have past := flags.loader.mp ended.done
    obtain ⟨cpus, dev⟩ := moved.others j
    refine ⟨?_, by rw [cpus]; exact id, by rw [cpus]; exact id, fun _ => by rw [dev]⟩
    cases moved with
    | detach here => exact ⟨ended.done, ended.empty, ended.idle⟩
    | hold here next early => simp [here] at past
    | ready here next due => simp [here] at past
    | finish here all => simp [here] at past
    | add here next => simp [here] at past
    | start here outside => simp [here] at past
    | sleep here inside raised => simp [here] at past
    | wakeUp here inside released => simp [here] at past
  | stop stopped finished => exact ⟨⟨ended.done, ended.empty, ended.idle⟩, id, id, fun _ => rfl⟩

theorem Quiescent.run {labels : List (Label c)} (reached : Reachable cfg env s) (ended : Quiescent s)
    (later : Run (Step cfg env) s labels t) (i : Fin c) : Steady i s t := by
  have both : Reachable cfg env t ∧ Quiescent t ∧ Steady i s t := by
    induction later with
    | start => exact ⟨reached, ended, .refl i s⟩
    | next _ taken ih =>
      obtain ⟨before, quiescent, steady⟩ := ih
      obtain ⟨quiescent', steady'⟩ := (Step.move taken).settled before.flags quiescent i
      exact ⟨before.next taken, quiescent', steady.trans steady'⟩
  exact both.2.2

/-- A CPU on its way out reaches the end of its loop by its own steps. -/
private theorem Quiescent.leaves (ended : Quiescent s)
    (here : (s.cpus i).loc = .fetch ∨ (s.cpus i).loc = .recheck none) :
    ∃ labels t, Run (Step cfg env) s labels t ∧ (t.cpus i).loc = .leaving := by
  have tested : ∀ now : Os c N, now.done = true → (now.cpus i).loc = .recheck none →
      ∃ t, Step cfg env now (.cpu i) t ∧ (t.cpus i).loc = .leaving := by
    intro now done recheck
    refine ⟨now.setCpu i { now.cpus i with loc := .leaving }, ?_, by simp⟩
    simp only [Step, step, cpuStep, recheck, done, if_true]
  obtain here | here := here
  · obtain ⟨sched, got⟩ : ∃ sched, s.sched.getProc = (sched, none) :=
      ⟨s.sched.getProc.1, Prod.ext rfl (Sched.getProc_of_empty ended.empty)⟩
    let now := { s with sched }.setCpu i { s.cpus i with loc := .recheck none }
    have missed : Step cfg env s (.cpu i) now := by simp only [Step, step, cpuStep, here, got, now]
    obtain ⟨t, left, there⟩ := tested now ended.done (by simp [now])
    exact ⟨_, t, (Run.one missed).next left, there⟩
  · obtain ⟨t, left, there⟩ := tested s ended.done here
    exact ⟨_, t, .one left, there⟩

/-- The next iteration of CPU `i` leaves its loop: after the `next_slot` that ends its current iteration
it makes no further call of it, and it can reach the end of the loop. -/
structure Leaves (cfg : Config N) (env : Env) (s : Os c N) (i : Fin c) : Prop where
  noFurther : ∀ labels t, Run (Step cfg env) s labels t → t.slotCalls i ≤ s.slotCalls i
  ends : ∃ labels t, Run (Step cfg env) s labels t ∧ (t.cpus i).loc = .leaving

/-- When the work is over, a CPU that is still in its loop leaves it exactly when it has given up a
process in its current iteration. Every other CPU stays between the loop head and `next_slot` in all
runs. -/
theorem idle_cpu_leaves_iff (reached : Reachable cfg env s) (ended : Quiescent s)
    (inLoop : (s.cpus i).loc ≠ .leaving ∧ (s.cpus i).loc ≠ .stopped) :
    (Leaves cfg env s i ↔ (s.cpus i).loc = .fetch ∨ (s.cpus i).loc = .recheck none) ∧
    (¬((s.cpus i).loc = .fetch ∨ (s.cpus i).loc = .recheck none) → ∀ labels t,
      Run (Step cfg env) s labels t → (t.cpus i).loc = .top none ∨ (t.cpus i).loc = .slot none) := by
  have cycles : ¬((s.cpus i).loc = .fetch ∨ (s.cpus i).loc = .recheck none) → Cycling (s.cpus i).loc := by
    intro elsewhere
    refine (cycling_or_wayOut (ended.idle i)).resolve_right ?_
    rintro (here | here | here | here)
    · exact elsewhere (.inl here)
    · exact elsewhere (.inr here)
    · exact inLoop.1 here
    · exact inLoop.2 here
  refine ⟨⟨fun leaves => ?_, fun here => ⟨?_, ended.leaves here⟩⟩, ?_⟩
  · apply not_not.mp
    intro elsewhere
    obtain ⟨labels, t, later, left⟩ := leaves.ends
    obtain there | there := (ended.run reached later i).cycling (cycles elsewhere) <;> simp [left] at there
  · intro labels t later
    have out : WayOut (s.cpus i).loc := by
      obtain here | here := here
      · exact .inl here
      · exact .inr (.inl here)
    have steady := ended.run reached later i
    rw [(steady.wayOut out).slotCalls, out.slotCalls, steady.starts out]
  · intro elsewhere labels t later
    exact (ended.run reached later i).cycling (cycles elsewhere)

/-- The one process is over. CPU 0 has just freed it, and CPU 1 had nothing to do. -/
private theorem quiescent_with_idle_cpu :
    let cfg := Config.atOnce 16 (fun _ : Fin 1 => [⟨.calc, 0, 0, 0, 0⟩]) 7
    let env : Env := ⟨.head, fun _ => 0⟩
    ∃ s : Os 2 1, Reachable cfg env s ∧ Quiescent s ∧ (s.cpus 0).loc = .fetch ∧ (s.cpus 1).loc = .slot none := by
  intro cfg env
  have computed : (exec cfg env [.loader, .loader, .cpu 0, .cpu 0, .cpu 0, .cpu 1, .loader, .cpu 0, .cpu 1,
      .timer, .timer, .timer, .timer, .timer, .timer, .timer, .timer, .loader, .loader, .cpu 0, .cpu 0]).map
      (fun s : Os 2 1 => (s.done, decide (∀ level, s.sched.mlqReadyQueue level = []), (s.cpus 0).loc,
        (s.cpus 1).loc)) = some (true, true, .fetch, .slot none) := by decide +kernel
  obtain ⟨s, reached, values⟩ := Option.map_eq_some_iff.mp computed
  simp only [Prod.mk.injEq, decide_eq_true_eq] at values
  obtain ⟨done, empty, freed, idle⟩ := values
  refine ⟨s, .of_exec reached, ⟨done, empty, fun i => ?_⟩, freed, idle⟩
  cases i using Fin.cases with
  | zero => rw [freed]; rfl
  | succ i => rw [Subsingleton.elim i 0, Fin.succ_zero_eq_one, idle]; rfl

theorem idle_cpu_leaves_iff_of_two :
    let cfg := Config.atOnce 16 (fun _ : Fin 1 => [⟨.calc, 0, 0, 0, 0⟩]) 7
    let env : Env := ⟨.head, fun _ => 0⟩
    ∃ s : Os 2 1, Reachable cfg env s ∧ Quiescent s ∧ Leaves cfg env s 0 ∧ ¬Leaves cfg env s 1 := by
  intro cfg env
  obtain ⟨s, reached, ended, freed, idle⟩ := quiescent_with_idle_cpu
  have first := idle_cpu_leaves_iff reached ended (i := 0) (by simp [freed])
  have second := idle_cpu_leaves_iff reached ended (i := 1) (by simp [idle])
  exact ⟨s, reached, ended, first.1.mpr (.inl freed), fun leaves => by simpa [idle] using second.1.mp leaves⟩

/-- CPU 1 never leaves its loop. -/
theorem idle_cpu_never_leaves :
    let cfg := Config.atOnce 16 (fun _ : Fin 1 => [⟨.calc, 0, 0, 0, 0⟩]) 7
    let env : Env := ⟨.head, fun _ => 0⟩
    ∃ s : Os 2 1, Reachable cfg env s ∧ Quiescent s ∧ ∀ labels t, Run (Step cfg env) s labels t →
      (t.cpus 1).loc ≠ .leaving ∧ (t.cpus 1).loc ≠ .stopped := by
  intro cfg env
  obtain ⟨s, reached, ended, _, idle⟩ := quiescent_with_idle_cpu
  refine ⟨s, reached, ended, fun labels t later => ?_⟩
  obtain there | there := (ended.run reached later 1).cycling (.inr idle) <;> simp [there]

end SimpleOS.Model.Os
