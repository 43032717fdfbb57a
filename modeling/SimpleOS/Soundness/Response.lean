import SimpleOS.Soundness.SpeedLimits
import SimpleOS.Soundness.TimeSlices

/-! # How long a process waits

A CPU gives its process back after a time slot, and then takes the most urgent one. So while a process is ready, no
CPU stays longer than a time slot with a less urgent one, and the most urgent process is taken within a time slot.
-/

namespace SimpleOS.Model

theorem Sched.getProc_urgent {ι : Type} [DecidableEq ι] {s t : Sched ι} {prio : ι → ℕ} {p q : ι} (sorted : s.Sorted prio)
    (ready : s.queued p ≠ 0) (got : s.getProc = (t, some q)) : prio q ≤ prio p := by
  obtain ⟨level, rest, queue, first, -⟩ := Sched.getProc_first got
  have taken := sorted level q (by rw [queue]; exact List.mem_cons_self)
  rw [← taken]
  apply Nat.le_of_not_lt
  intro lower
  refine ready (Sched.queued_eq_zero_iff.mpr fun other member => ?_)
  have own := sorted other p member
  rw [first other (Fin.lt_def.mpr (own ▸ lower))] at member
  cases member

namespace Os

open Lib Timer

variable {c N : ℕ} {cfg : Config N} {env : Env} {s t : Os c N} {i : Fin c} {label : Label c} {p q : Fin N} {T : Int}

/-- The CPU serves a process at least as urgent as `p`, or takes one next, or leaves. -/
def Heeds (cfg : Config N) (s : Os c N) (p : Fin N) (i : Fin c) : Prop :=
  (s.cpus i).loc = .fetch ∨ (s.cpus i).loc = .top none ∨ (s.cpus i).loc = .leaving ∨ (s.cpus i).loc = .stopped ∨
    ∃ q, (s.cpus i).loc.proc = some q ∧ cfg.level q ≤ cfg.level p

/-- The slots that end before the CPU calls `get_proc`. -/
def slotsLeft (cfg : Config N) (s : Os c N) (i : Fin c) : Int :=
  match (s.cpus i).loc with
  | .recheck none => 1
  | .recheck (some _) => if (s.cpus i).timeLeft = 0 then cfg.timeSlot else (s.cpus i).timeLeft
  | .slot _ => (s.cpus i).timeLeft + if s.Through i then 1 else 0
  | _ => (s.cpus i).timeLeft

/-- CPU `i` calls `get_proc` by time `T`. -/
def Yields (cfg : Config N) (p : Fin N) (T : Int) (i : Fin c) (s : Os c N) : Prop :=
  s.Heeds cfg p i ∨ s.timer.time + s.slotsLeft cfg i ≤ T

theorem Yields.congr (yields : Yields cfg p T i s) (cpus : t.cpus i = s.cpus i) (time : t.timer.time = s.timer.time)
    (device : (s.timer.devs (cpuDev i)).Same (t.timer.devs (cpuDev i))) : Yields cfg p T i t := by
  have through := Through.congr time device
  simp only [Yields, Heeds, slotsLeft, cpus, time, through] at yields ⊢
  exact yields

/-- A CPU that keeps its process. -/
private theorem Yields.go (yields : Yields cfg p T i s) {before : CpuLoc (Fin N)} (here : (s.cpus i).loc = before)
    (same : (t.cpus i).loc.proc = before.proc)
    (bound : before ≠ .fetch ∧ before ≠ .top none ∧ before ≠ .leaving ∧ before ≠ .stopped)
    (time : t.timer.time = s.timer.time) (left : t.slotsLeft cfg i ≤ s.slotsLeft cfg i) : Yields cfg p T i t := by
  obtain heeds | soon := yields
  · refine .inl ?_
    rw [Heeds, here] at heeds
    rw [Heeds, same]
    obtain ⟨fetch, top, leaving, stopped⟩ := bound
    have serves := (((heeds.resolve_left fetch).resolve_left top).resolve_left leaving).resolve_left stopped
    exact .inr (.inr (.inr (.inr serves)))
  · refine .inr ?_
    rw [time]
    omega

private theorem Yields.own (reached : Reachable cfg env s) (quota : Quota cfg i s) (ready : s.sched.queued p ≠ 0)
    (yields : Yields cfg p T i s) (taken : s.cpuStep cfg env i = some t) : Yields cfg p T i t := by
  have some_queue {sched : Sched (Fin N)} (got : s.sched.getProc = (sched, none)) : False := by
    obtain ⟨empty, -⟩ := Sched.getProc_none got
    exact ready (Sched.queued_eq_zero_iff.mpr fun level => by simp [empty level])
  have linked := reached.linked
  cases cpuStep_move taken with
  | @take q sched empty got =>
    have urgent := Sched.getProc_urgent reached.sorted ready got
    exact .inl (.inr (.inr (.inr (.inr ⟨q, by simp [CpuLoc.proc], urgent⟩))))
  | idle here got => exact (some_queue got).elim
  | miss here got => exact (some_queue got).elim
  | retire here finished => exact .inl (.inl (by simp))
  | put here unfinished spent => exact .inl (.inl (by simp))
  | keep here unfinished left =>
    refine yields.go here (by simp [CpuLoc.proc]) (by simp) rfl ?_
    simp [slotsLeft, here, left]
  | leave here done => exact .inl (.inr (.inr (.inl (by simp))))
  | skip here pending =>
    have vacant := quota.idle (by rw [here]; rfl)
    refine yields.go here (by simp [CpuLoc.proc]) (by simp) rfl ?_
    simp only [slotsLeft, here, setCpu_cpus_self, vacant]
    split <;> omega
  | @dispatch q timeLeft here =>
    rw [cpuStep_dispatch here, Option.some.injEq] at taken
    rw [← taken]
    refine yields.go here (by simp [CpuLoc.proc]) (by simp) rfl ?_
    simp [slotsLeft, here]
  | run here ran =>
    refine yields.go here (by simp [CpuLoc.proc]) (by simp) rfl ?_
    simp only [slotsLeft, here, setCpu_cpus_self]
    split <;> omega
  | start here outside =>
    refine yields.go here (by rw [here]) (by simp) rfl ?_
    have before : s.Through i := .inl outside
    simp only [slotsLeft, here, before, if_true]
    split <;> omega
  | sleep here inside raised => exact yields.congr rfl rfl (look_same inside raised _)
  | @wakeUp proc here inside released =>
    cases proc with
    | none => exact .inl (.inr (.inl (by simp)))
    | some q =>
      refine yields.go here (by simp [CpuLoc.proc]) (by simp) rfl ?_
      simp [slotsLeft, here, not_through linked here inside released]
  | detach here => exact .inl (.inr (.inr (.inr (.inl (by simp)))))

private theorem Yields.clock (reached : Reachable cfg env s) (yields : Yields cfg p T i s) {timer : Timer.State (c + 1)}
    (moved : Clock s.timer timer) : Yields cfg p T i { s with timer } := by
  by_cases same : timer.time = s.timer.time
  · exact yields.congr rfl same (moved.same _)
  · have linked := reached.linked
    by_cases stopped : (s.cpus i).loc = .stopped
    · exact .inl (.inr (.inr (.inr (.inl stopped))))
    · obtain ⟨proc, slot, through, past⟩ := through_at_tick linked moved same stopped
      obtain ⟨next, -⟩ := moved.time linked.inv same
      obtain heeds | soon := yields
      · exact .inl heeds
      · refine .inr ?_
        simp only [slotsLeft, slot, through, if_true] at soon
        simp only [slotsLeft, slot, past, if_false, next]
        push_cast
        omega

theorem Yields.step (reached : Reachable cfg env s) (quota : Quota cfg i s) (ready : s.sched.queued p ≠ 0)
    (yields : Yields cfg p T i s) (taken : Step cfg env s label t) : Yields cfg p T i t := by
  cases Step.move taken with
  | clock moved => exact yields.clock reached moved
  | @cpu j _ moved =>
    by_cases own : i = j
    · subst own
      exact yields.own reached quota ready taken
    · obtain ⟨cpus, devices⟩ := moved.others own
      refine yields.congr cpus ?_ (devices ▸ .refl _)
      cases moved <;> rfl
  | loader moved =>
    obtain ⟨cpus, devices⟩ := moved.others i
    refine yields.congr (congrFun cpus i) ?_ (devices ▸ .refl _)
    cases moved <;> rfl
  | stop stopped finished => exact yields.congr rfl rfl (.refl _)

theorem Reachable.quota (positive : 1 ≤ cfg.timeSlot) (reached : Reachable cfg env s) (i : Fin c) : Quota cfg i s := by
  obtain ⟨turns, run⟩ := reached.cpuAmong i
  exact quota_of_run positive run

/-- A run in which the process stays ready. -/
abbrev ReadyRun (cfg : Config N) (env : Env) (p : Fin N) : Os c N → List (Label c) → Os c N → Prop :=
  Run (guarded (fun now _ => now.sched.queued p ≠ 0) (Step cfg env))

theorem ReadyRun.reachable {labels : List (Label c)} (run : ReadyRun cfg env p s labels t)
    (reached : Reachable cfg env s) : Reachable cfg env t := by
  obtain ⟨before, earlier⟩ := reached
  exact ⟨_, earlier.trans run.of_guarded⟩

/-- A CPU in `next_slot` has used one slot of its process. -/
theorem Reachable.usedOne (positive : 1 ≤ cfg.timeSlot) (reached : Reachable cfg env s) (i : Fin c) :
    ∀ q, (s.cpus i).loc = .slot (some q) → (s.cpus i).timeLeft < cfg.timeSlot := by
  apply Reachable.keeps
    (fun s : Os c N => ∀ q, (s.cpus i).loc = .slot (some q) → (s.cpus i).timeLeft < cfg.timeSlot) reached
  · intro q here
    cases here
  · intro now label after before used moved
    cases moved with
    | clock moved => exact used
    | @cpu j _ moved =>
      by_cases own : i = j
      · subst own
        cases moved with
        | run here ran =>
          have le := (before.quota positive i).le
          intro q _
          simp only [setCpu_cpus_self]
          omega
        | start here outside | sleep here inside raised => exact used
        | _ =>
          intro q there
          simp at there
      · rw [(moved.others own).1]
        exact used
    | loader moved =>
      rw [(moved.others i).1]
      exact used
    | stop stopped finished => exact used

/-- At any time a CPU is within a time slot of its next call of `get_proc`. -/
private theorem Reachable.yields (positive : 1 ≤ cfg.timeSlot) (reached : Reachable cfg env s) (p : Fin N) (i : Fin c) :
    Yields cfg p (s.timer.time + cfg.timeSlot) i s := by
  have quota := reached.quota positive i
  have le := quota.le
  refine .inr ?_
  suffices left : s.slotsLeft cfg i ≤ cfg.timeSlot by omega
  rw [slotsLeft]
  split
  · exact positive
  · split_ifs
    · exact le_rfl
    · exact le
  · rename_i proc here
    cases proc with
    | none =>
      have vacant := quota.idle (by rw [here]; rfl)
      split_ifs <;> omega
    | some q =>
      have used := reached.usedOne positive i q here
      split_ifs <;> omega
  · exact le

private theorem ReadyRun.yields (positive : 1 ≤ cfg.timeSlot) (reached : Reachable cfg env s) {labels : List (Label c)}
    (run : ReadyRun cfg env p s labels t) (i : Fin c) : Yields cfg p (s.timer.time + cfg.timeSlot) i t := by
  induction run with
  | start => exact reached.yields positive p i
  | next earlier taken ih =>
    have before := ReadyRun.reachable earlier reached
    exact ih.step before (before.quota positive i) taken.1 taken.2

/-- The processes besides `p` that are as urgent as `p`. -/
def rivals (cfg : Config N) (p : Fin N) : Finset (Fin N) := {q | q ≠ p ∧ cfg.level q ≤ cfg.level p}

/-- The CPUs that have not left their loop. -/
def inLoop (s : Os c N) : Finset (Fin c) := {i | (s.cpus i).loc ≠ .leaving ∧ (s.cpus i).loc ≠ .stopped}

theorem mem_inLoop : i ∈ s.inLoop ↔ (s.cpus i).loc ≠ .leaving ∧ (s.cpus i).loc ≠ .stopped := by simp [inLoop]

/-- A CPU that leaves its loop does not come back. -/
private theorem CpuMove.inLoop (moved : CpuMove cfg env s i t) (inside : i ∈ t.inLoop) : i ∈ s.inLoop := by
  rw [mem_inLoop] at inside ⊢
  cases moved with
  | take empty got => obtain here | here := empty <;> simp [here]
  | idle here _ | miss here _ | retire here _ | put here _ _ | keep here _ _ | leave here _ | skip here _
  | dispatch here | run here _ | start here _ | sleep here _ _ | wakeUp here _ _ => simp [here]
  | detach here => simp at inside

private theorem Move.inLoop (moved : Move cfg env s label t) : t.inLoop ⊆ s.inLoop := by
  intro i inside
  cases moved with
  | clock moved => exact inside
  | @cpu j _ moved =>
    by_cases own : i = j
    · subst own
      exact moved.inLoop inside
    · rw [mem_inLoop, (moved.others own).1, ← mem_inLoop] at inside
      exact inside
  | loader moved =>
    rw [mem_inLoop, (moved.others i).1, ← mem_inLoop] at inside
    exact inside
  | stop stopped finished => exact inside

/-- As long as a process is ready some CPU stays. -/
theorem Reachable.inLoop_nonempty (someCpu : 0 < c) (reached : Reachable cfg env s) (ready : s.sched.queued p ≠ 0) :
    s.inLoop.Nonempty := by
  cases done : s.done with
  | false => exact ⟨⟨0, someCpu⟩, mem_inLoop.mpr (reached.flags.running done _)⟩
  | true =>
    obtain ⟨level, ready⟩ : ∃ level, s.sched.mlqReadyQueue level ≠ [] := by
      by_contra none
      refine ready (Sched.queued_eq_zero_iff.mpr fun level member => none ⟨level, ?_⟩)
      exact List.ne_nil_of_mem member
    obtain ⟨i, there⟩ | ⟨waits, -⟩ := reached.served someCpu ⟨level, ready⟩
    · refine ⟨i, mem_inLoop.mpr ⟨fun leaving => ?_, fun stopped => ?_⟩⟩
      · exact there (.inr (.inl leaving))
      · exact there (.inr (.inr stopped))
    · exfalso
      obtain here | here := reached.flags.loader.mp done <;> simp [waits] at here

/-- When the time goes up and every CPU was to call `get_proc` before, those still in their loops hold rivals. -/
private theorem inLoop_le_rivals (positive : 1 ≤ cfg.timeSlot) (reached : Reachable cfg env s)
    (ready : s.sched.queued p ≠ 0) (yields : ∀ i, Yields cfg p s.timer.time i s) {timer : Timer.State (c + 1)}
    (moved : Clock s.timer timer) (ticked : timer.time ≠ s.timer.time) : s.inLoop.card ≤ (rivals cfg p).card := by
  have linked := reached.linked
  have rival (i : Fin c) (inside : i ∈ s.inLoop) : ∃ q ∈ rivals cfg p, (s.cpus i).loc.proc = some q := by
    obtain ⟨proc, slot, through, -⟩ := through_at_tick linked moved ticked (mem_inLoop.mp inside).2
    have nonneg := (reached.quota positive i).nonneg
    obtain heeds | soon := yields i
    · rw [Heeds, slot] at heeds
      obtain elsewhere | elsewhere | elsewhere | elsewhere | ⟨q, holds, urgent⟩ := heeds
      iterate 4 cases elsewhere
      refine ⟨q, Finset.mem_filter.mpr ⟨Finset.mem_univ q, ?_, urgent⟩, by rw [slot]; exact holds⟩
      rintro rfl
      have once := (reached.accounted q).once
      have one : 1 ≤ s.held q := one_le_held (i := i) (by rw [slot]; exact holds)
      rw [places] at once
      omega
    · simp only [slotsLeft, slot, through, if_true] at soon
      omega
  have : Nonempty (Fin N) := ⟨p⟩
  choose! held member holds using rival
  have apart : Set.InjOn held (s.inLoop : Set (Fin c)) := by
    intro i here j there same
    exact (reached.accounted (held i)).holder_unique (holds i here) (same ▸ holds j there)
  exact Finset.card_le_card_of_injOn held member apart

/-- With fewer rivals than CPUs the process is not ready for longer than a time slot. -/
private theorem ReadyRun.soon (positive : 1 ≤ cfg.timeSlot) (reached : Reachable cfg env s) {labels : List (Label c)}
    (run : ReadyRun cfg env p s labels t) (few : (rivals cfg p).card < t.inLoop.card) :
    (t.timer.time : Int) ≤ s.timer.time + cfg.timeSlot := by
  induction run with
  | start => omega
  | @next _ now after label earlier taken ih =>
    obtain ⟨ready, taken⟩ := taken
    have before := ReadyRun.reachable earlier reached
    have moved := Step.move taken
    have stay : (rivals cfg p).card < now.inLoop.card := few.trans_le (Finset.card_le_card moved.inLoop)
    have within := ih stay
    by_cases same : after.timer.time = now.timer.time
    · rw [same]
      exact within
    · have next := (time_step before taken same).1
      obtain late | intime := eq_or_lt_of_le within
      · exfalso
        have yields (i : Fin c) : Yields cfg p now.timer.time i now := late ▸ ReadyRun.yields positive reached earlier i
        cases moved with
        | clock moved =>
          have held := inLoop_le_rivals positive before ready yields moved same
          omega
        | cpu moved => cases moved <;> exact same rfl
        | loader moved => cases moved <;> exact same rfl
        | stop stopped finished => exact same rfl
      · omega

/-- While a process is ready: after a time slot every CPU serves processes as urgent, or takes one next, or leaves;
and with fewer such processes than CPUs in their loops, of which there is always one, the wait is over. -/
theorem response (positive : 1 ≤ cfg.timeSlot) (reached : Reachable cfg env s) {labels : List (Label c)}
    (run : ReadyRun cfg env p s labels t) :
    (s.timer.time + cfg.timeSlot < t.timer.time → ∀ i, t.Heeds cfg p i) ∧
    ((rivals cfg p).card < t.inLoop.card → (t.timer.time : Int) ≤ s.timer.time + cfg.timeSlot) ∧
    (0 < c → t.sched.queued p ≠ 0 → t.inLoop.Nonempty) := by
  refine ⟨fun late i => ?_, run.soon positive reached, fun someCpu => (run.reachable reached).inLoop_nonempty someCpu⟩
  have quota := ((run.reachable reached).quota positive i)
  obtain heeds | soon := run.yields positive reached i
  · exact heeds
  · exfalso
    have nonneg := quota.nonneg
    have left : 0 ≤ t.slotsLeft cfg i := by
      rw [slotsLeft]
      split
      · exact Int.one_nonneg
      · split_ifs <;> omega
      · split_ifs <;> omega
      · exact nonneg
    omega

/-- A less urgent process has the only CPU for one more slot. -/
theorem response_of_two :
    let cfg : Config 2 := { Config.atOnce 16 (fun _ => List.replicate 3 ⟨.calc, 0, 0, 0, 0⟩) 0 with
      timeSlot := 2
      prio p := if p = 0 then 5 else 0 }
    let env : Env := ⟨.head, fun _ => 0⟩
    ∃ (labels : List (Label 1)) (s t : Os 1 2), Reachable cfg env s ∧ ReadyRun cfg env 1 s labels t ∧
      s.timer.time = 1 ∧ t.timer.time = 2 ∧ (t.timer.time : Int) ≤ s.timer.time + 2 := by
  intro cfg env
  let first : List (Label 1) := [.loader, .loader, .loader, .loader, .cpu 0, .cpu 0, .cpu 0, .cpu 0, .cpu 0, .timer,
    .timer, .timer, .timer, .timer, .loader, .loader, .loader]
  let second : List (Label 1) := [.timer, .cpu 0, .cpu 0, .cpu 0, .cpu 0, .cpu 0, .cpu 0, .loader, .timer, .timer,
    .timer, .timer, .timer]
  let next (now : Os 1 2) (label : Label 1) := if now.sched.queued 1 ≠ 0 then now.step cfg env label else none
  have computed : ((exec cfg env first).bind fun s : Os 1 2 => (second.foldlM next s).map fun t =>
      (s.timer.time, t.timer.time, t.inLoop.card)) = some (1, 2, 1) := by decide +kernel
  obtain ⟨s, reached, rest⟩ := Option.bind_eq_some_iff.mp computed
  obtain ⟨t, taken, values⟩ := Option.map_eq_some_iff.mp rest
  obtain ⟨before, values⟩ := Prod.mk.inj values
  obtain ⟨after, staying⟩ := Prod.mk.inj values
  have run : ReadyRun cfg env 1 s second t := Run.of_guarded_foldlM taken
  have few : (rivals cfg 1).card < t.inLoop.card := by
    rw [staying]
    decide
  obtain ⟨-, soon, -⟩ := response (by decide) (.of_exec reached) run
  exact ⟨second, s, t, .of_exec reached, run, before, after, soon few⟩

end Os

end SimpleOS.Model
