import SimpleOS.Soundness.SpeedLimits

/-! # All CPUs work while a process waits

A CPU that finds the queues empty sleeps through a slot, and another one may put a process back behind it. But who puts a
process back takes one in the same slot. So a process is left in a queue at the end of a slot only when every CPU has
run one, and no order of the threads is much slower than another.
-/

namespace SimpleOS.Model

open Lib

namespace Sched

variable {ι : Type} {s t : Sched ι} {prio : ℕ} {p : ι}

/-- The entries of all ready queues. -/
def waiting (s : Sched ι) : ℕ := tally List.length s.mlqReadyQueue

private theorem waiting_eq_zero_iff : s.waiting = 0 ↔ ∀ level, s.mlqReadyQueue level = [] := by
  rw [waiting, tally_eq_zero_iff]
  simp only [List.length_eq_zero_iff]

private theorem waiting_congr (same : t.mlqReadyQueue = s.mlqReadyQueue) : t.waiting = s.waiting := by
  rw [waiting, waiting, same]

private theorem getProc_waiting (got : s.getProc = (t, some p)) : t.waiting + 1 = s.waiting := by
  obtain ⟨level, rest, queue, changed, -⟩ := getProc_some got
  have lengths := tally_update List.length s.mlqReadyQueue level rest
  rw [queue, List.length_cons, ← changed] at lengths
  rw [waiting, waiting]
  omega

private theorem addProc_waiting (s : Sched ι) (prio : ℕ) (p : ι) : (s.addProc prio p).waiting ≤ s.waiting + 1 := by
  by_cases accepted : s.Accepts prio
  · obtain ⟨level, -, changed⟩ := addProc_accepted (p := p) accepted
    have lengths := tally_update List.length s.mlqReadyQueue level (s.mlqReadyQueue level ++ [p])
    rw [List.length_append, List.length_singleton, ← changed] at lengths
    rw [waiting, waiting]
    omega
  · rw [addProc_refused accepted]
    exact Nat.le_succ _

end Sched

namespace Os

open Timer

variable {c N : ℕ} {cfg : Config N} {env : Env} {s t : Os c N} {i : Fin c} {label : Label c} {p q : Fin N}

/-- One for a CPU that is about to take a process. -/
def fetches (cpu : Cpu (Fin N)) : ℕ := if cpu.loc = .fetch then 1 else 0

def fetching (s : Os c N) : ℕ := tally fetches s.cpus

/-- The CPU has found nothing in this slot, or it has left. -/
def Spare (s : Os c N) (i : Fin c) : Prop :=
  match (s.cpus i).loc with
  | .recheck none => True
  | .slot none => s.Through i
  | .leaving => True
  | .stopped => True
  | _ => False

/-- Once loaded, and once a CPU has found nothing, there are no more processes in the queues than CPUs to take them. -/
def Matched (cfg : Config N) (s : Os c N) : Prop :=
  cfg.freeTime N ≤ s.timer.time → (∃ i, s.Spare i) → s.sched.waiting ≤ s.fetching

theorem Spare.congr (cpus : t.cpus i = s.cpus i) (time : t.timer.time = s.timer.time)
    (device : (s.timer.devs (cpuDev i)).Same (t.timer.devs (cpuDev i))) : t.Spare i ↔ s.Spare i := by
  rw [Spare, Spare, cpus, Through.congr time device]

private theorem fetching_update {cpu : Cpu (Fin N)} (changed : t.cpus = Function.update s.cpus i cpu) :
    t.fetching + fetches (s.cpus i) = s.fetching + fetches cpu := by
  have weights := tally_update fetches s.cpus i cpu
  rw [← changed] at weights
  exact weights

/-- No CPU becomes spare, and the queues get no longer than the CPUs that serve them become more. -/
private theorem Matched.go (matched : Matched cfg s) (time : t.timer.time = s.timer.time)
    (spare : ∀ i, t.Spare i → ∃ j, s.Spare j) (balance : t.sched.waiting + s.fetching ≤ s.sched.waiting + t.fetching) :
    Matched cfg t := by
  rintro loaded ⟨i, here⟩
  have before := matched (time ▸ loaded) (spare i here)
  omega

private theorem Matched.of_empty (empty : ∀ level, t.sched.mlqReadyQueue level = []) : Matched cfg t := by
  rintro - -
  rw [Sched.waiting_eq_zero_iff.mpr empty]
  exact Nat.zero_le _

private theorem CpuMove.matched (matched : Matched cfg s) (moved : CpuMove cfg env s i t) : Matched cfg t := by
  have others (time : t.timer.time = s.timer.time) (own : t.Spare i → s.Spare i) (j : Fin c) (spare : t.Spare j) :
      ∃ k, s.Spare k := by
    refine ⟨j, ?_⟩
    by_cases same : j = i
    · subst same
      exact own spare
    · obtain ⟨cpus, devices⟩ := moved.others same
      exact (Spare.congr cpus time (by rw [devices]; exact .refl _)).mp spare
  have go {cpu : Cpu (Fin N)} (changed : t.cpus = Function.update s.cpus i cpu) (time : t.timer.time = s.timer.time)
      (own : t.Spare i → s.Spare i)
      (balance : t.sched.waiting + fetches (s.cpus i) ≤ s.sched.waiting + fetches cpu) : Matched cfg t := by
    have taking := fetching_update changed
    apply matched.go time (others time own)
    omega
  cases moved with
  | take empty got =>
    have shorter := Sched.getProc_waiting got
    apply go rfl rfl
    · simp [Spare]
    · simp only [setCpu_sched, fetches, reduceCtorEq, if_false]
      split_ifs <;> omega
  | idle here got =>
    obtain ⟨empty, same, _⟩ := Sched.getProc_none got
    exact .of_empty fun level => (congrFun same level).trans (empty level)
  | miss here got =>
    obtain ⟨empty, same, _⟩ := Sched.getProc_none got
    exact .of_empty fun level => (congrFun same level).trans (empty level)
  | retire here finished =>
    apply go rfl rfl
    · simp [Spare]
    · simp [fetches, here]
  | @put q here unfinished spent =>
    have longer := Sched.addProc_waiting s.sched (s.mem.procs q).prio q
    have same : (s.sched.putProc (s.mem.procs q).prio q).waiting = (s.sched.addProc (s.mem.procs q).prio q).waiting :=
      Sched.waiting_congr Sched.putProc_mlqReadyQueue
    apply go rfl rfl
    · simp [Spare]
    · simp only [setCpu_sched, same, fetches, here, reduceCtorEq, if_false, if_true]
      omega
  | keep here unfinished left | dispatch here | run here ran =>
    apply go rfl rfl
    · simp [Spare]
    · simp [fetches, here]
  | leave here done | skip here pending | detach here =>
    apply go rfl rfl
    · simp [Spare, here]
    · simp [fetches, here]
  | start here outside =>
    refine matched.go rfl (others rfl fun spare => ?_) le_rfl
    have before : s.Through i := .inl outside
    rw [Spare, here] at spare ⊢
    split at spare <;> simp_all
  | sleep here inside raised =>
    exact matched.go rfl (others rfl (Spare.congr (by rfl) (by rfl) (look_same inside raised _)).mp) le_rfl
  | wakeUp here inside released =>
    apply go rfl rfl
    · simp [Spare]
    · simp [fetches, here]

private theorem LoaderMove.matched (reached : Reachable cfg env s) (matched : Matched cfg s)
    (moved : LoaderMove cfg s t) : Matched cfg t := by
  have spare (time : t.timer.time = s.timer.time) (j : Fin c) (spare : t.Spare j) : ∃ k, s.Spare k := by
    obtain ⟨cpus, devices⟩ := moved.others j
    exact ⟨j, (Spare.congr (congrFun cpus j) time (by rw [devices]; exact .refl _)).mp spare⟩
  cases moved with
  | @add p here next =>
    -- the last process is added before
    intro loaded
    have all := reached.all_added loaded
    have inside := p.isLt
    omega
  | _ => exact matched.go rfl (spare rfl) le_rfl

/-- When a slot begins, only a CPU that has left is spare. -/
private theorem Matched.clock (reached : Reachable cfg env s) (matched : Matched cfg s) {timer : Timer.State (c + 1)}
    (moved : Clock s.timer timer) : Matched cfg { s with timer } := by
  by_cases same : timer.time = s.timer.time
  · exact matched.go same (fun j spare => ⟨j, (Spare.congr (by rfl) same (moved.same _)).mp spare⟩) le_rfl
  · have linked := reached.linked
    rintro - ⟨i, spare⟩
    by_cases stopped : (s.cpus i).loc = .stopped
    · obtain ⟨-, -, loaded⟩ | ⟨pending, -⟩ := reached.onSchedule.done_cases reached
      · exact matched loaded ⟨i, by simp [Spare, stopped]⟩
      · exact absurd stopped (reached.flags.running pending i).2
    · obtain ⟨proc, slot, -, past⟩ := through_at_tick linked moved same stopped
      exfalso
      rw [Spare] at spare
      simp only [slot] at spare
      split at spare <;> simp_all

private theorem Reachable.matched (reached : Reachable cfg env s) : Matched cfg s := by
  apply Reachable.keeps (Matched cfg) reached (.of_empty fun _ => rfl)
  intro now label after before matched moved
  cases moved with
  | clock moved => exact matched.clock before moved
  | cpu moved => exact moved.matched matched
  | loader moved => exact moved.matched before matched
  | stop stopped finished => exact matched

/-- When a slot ends after loading, a process that is not freed has run, or all CPUs have. -/
private theorem full_at_tick (small : N ≤ maxQueueSize) (levels : ∀ p, cfg.level p < maxPrio)
    (reached : Reachable cfg env s)
    {timer : Timer.State (c + 1)} (moved : Clock s.timer timer) (ticked : timer.time ≠ s.timer.time)
    (loaded : cfg.freeTime N ≤ s.timer.time) (alive : s.freed p = false) :
    (∃ i, s.ThroughOn p i) ∨ ∀ i, s.timer.time ∈ (s.cpus i).runTimes := by
  have linked := reached.linked
  by_cases spare : ∃ i, s.Spare i
  · have none : s.fetching = 0 := by
      refine tally_eq_zero_iff.mpr fun i => if_neg fun here => ?_
      obtain ⟨proc, slot, -⟩ := through_at_tick linked moved ticked (i := i) (by simp [here])
      rw [here] at slot
      cases slot
    have empty : s.sched.waiting = 0 := by
      have matched := reached.matched loaded spare
      omega
    have queued : s.sched.queued p = 0 := by
      refine Sched.queued_eq_zero_iff.mpr fun level => ?_
      simp [Sched.waiting_eq_zero_iff.mp empty level]
    have added : (p : ℕ) < s.loader.i := by
      rw [reached.all_added loaded]
      exact p.isLt
    have one := reached.present small levels p added alive
    obtain ⟨i, holds⟩ : ∃ i, (s.cpus i).loc.proc = some p := by
      by_contra nobody
      have held := held_eq_zero_iff.mpr (not_exists.mp nobody)
      rw [places] at one
      omega
    have there : (s.cpus i).loc ≠ .stopped := by
      rintro here
      simp [here, CpuLoc.proc] at holds
    obtain ⟨proc, slot, through, -⟩ := through_at_tick linked moved ticked there
    refine .inl ⟨i, ?_, through⟩
    rw [slot] at holds ⊢
    rw [show proc = some p from holds]
  · refine .inr fun i => ?_
    rw [not_exists] at spare
    have busy := spare i
    have there : (s.cpus i).loc ≠ .stopped := fun here => busy (by simp [Spare, here])
    obtain ⟨proc, slot, through, -⟩ := through_at_tick linked moved ticked there
    cases proc with
    | none => exact absurd (by simpa [Spare, slot] using through) busy
    | some q =>
      obtain ⟨-, waiting, counted⟩ := tick_counted linked moved ticked _ ((linked.cpu i).attached (by simp [slot]))
      exact (reached.ranLast i q slot).2 waiting _ counted

instance (s : Os c N) (p : Fin N) (i : Fin c) : Decidable (s.ThroughOn p i) := inferInstanceAs (Decidable (_ ∧ _))

/-- One when the process has run in the current slot. -/
def credit (s : Os c N) (p : Fin N) : ℕ := if ∃ i, s.ThroughOn p i then 1 else 0

/-- The calls of `run` in the slots that have ended. -/
def past (s : Os c N) : ℕ := tally (fun cpu => cpu.runTimes.countP (· < s.timer.time)) s.cpus

/-- Each slot after loading is paid for by a call of `run` in every CPU, or by one for `p` that counts `c` times. -/
def Ledger (cfg : Config N) (p : Fin N) (s : Os c N) : Prop :=
  s.freed p = false →
    c * (s.timer.time - cfg.freeTime N) + (c - 1) * s.credit p ≤ s.past + (c - 1) * calls cfg s p

private theorem credit_le (through : ∀ i, t.ThroughOn p i → ∃ j, s.ThroughOn p j) : t.credit p ≤ s.credit p := by
  rw [credit, credit]
  split_ifs with after before
  · exact le_rfl
  · obtain ⟨i, here⟩ := after
    exact absurd (through i here) before
  · exact Nat.zero_le _
  · exact le_rfl

private theorem past_congr (time : t.timer.time = s.timer.time)
    (times : ∀ i, (t.cpus i).runTimes = (s.cpus i).runTimes ∨
      (t.cpus i).runTimes = (s.cpus i).runTimes ++ [s.timer.time]) :
    t.past = s.past := by
  rw [past, past, time]
  refine Finset.sum_congr rfl fun i _ => ?_
  obtain same | longer := times i
  · simp only [same]
  · simp [longer]

/-- In a slot a call only moves from the credit to the calls. -/
private theorem Ledger.go (ledger : Ledger cfg p s) (time : t.timer.time = s.timer.time) (past : t.past = s.past)
    (balance : t.credit p + calls cfg s p ≤ s.credit p + calls cfg t p)
    (freed : t.freed p = false → s.freed p = false) : Ledger cfg p t := by
  intro alive
  have before := ledger (freed alive)
  have scaled := Nat.mul_le_mul_left (c - 1) balance
  rw [Nat.mul_add, Nat.mul_add] at scaled
  rw [time, past]
  omega

private theorem CpuMove.times (moved : CpuMove cfg env s i t) (j : Fin c) :
    (t.cpus j).runTimes = (s.cpus j).runTimes ∨ (t.cpus j).runTimes = (s.cpus j).runTimes ++ [s.timer.time] := by
  by_cases own : j = i
  · subst own
    cases moved with
    | run here ran => exact .inr (by simp)
    | start here outside | sleep here inside raised => exact .inl rfl
    | _ => exact .inl (by simp)
  · exact .inl (by rw [(moved.others own).1])

private theorem CpuMove.ledger (reached : Reachable cfg env s) (ledger : Ledger cfg p s)
    (moved : CpuMove cfg env s i t) : Ledger cfg p t := by
  have linked := reached.linked
  have calls := moved.calls reached p
  have time : t.timer.time = s.timer.time := by cases moved <;> rfl
  have past := past_congr time moved.times
  have freed : t.freed p = false → s.freed p = false := by
    intro alive
    apply Bool.eq_false_iff.mpr
    intro before
    rw [(Move.records (.cpu moved)).1 p before] at alive
    cases alive
  -- the credit stays when the CPU has not called `run` for `p`
  have stays (own : t.ThroughOn p i → s.ThroughOn p i) : Ledger cfg p t := by
    have credit : t.credit p ≤ s.credit p := by
      refine credit_le fun j through => ⟨j, ?_⟩
      by_cases same : j = i
      · subst same
        exact own through
      · obtain ⟨cpus, devices⟩ := moved.others same
        exact (ThroughOn.congr cpus time (by rw [devices]; exact .refl _)).mp through
    apply ledger.go time past _ freed
    omega
  cases moved with
  | @run q mem status here ran =>
    by_cases own : q = p
    · subst own
      rw [if_pos here] at calls
      apply ledger.go time past _ freed
      rw [calls, credit]
      split_ifs <;> omega
    · exact stays (by simp [ThroughOn, own])
  | start here outside => exact stays fun through => ⟨through.1, .inl outside⟩
  | sleep here inside raised => exact stays (ThroughOn.congr (by rfl) (by rfl) (look_same inside raised _)).mp
  | _ => exact stays (by simp [ThroughOn])

/-- No CPU takes a step in the slot. -/
private theorem Ledger.rest (ledger : Ledger cfg p s) (time : t.timer.time = s.timer.time) (cpus : t.cpus = s.cpus)
    (devices : ∀ i, (s.timer.devs (cpuDev i)).Same (t.timer.devs (cpuDev i)))
    (calls : calls cfg t p = calls cfg s p) (freed : t.freed = s.freed) : Ledger cfg p t := by
  have past : t.past = s.past := past_congr time fun i => .inl (by rw [cpus])
  have credit : t.credit p ≤ s.credit p :=
    credit_le fun i through => ⟨i, (ThroughOn.congr (congrFun cpus i) time (devices i)).mp through⟩
  apply ledger.go time past
  · omega
  · rw [freed]
    exact id

private theorem LoaderMove.ledger (ledger : Ledger cfg p s) (moved : LoaderMove cfg s t)
    (calls : calls cfg t p = calls cfg s p) : Ledger cfg p t := by
  have devices (i : Fin c) : (s.timer.devs (cpuDev i)).Same (t.timer.devs (cpuDev i)) := by
    rw [(moved.others i).2]
    exact .refl _
  cases moved <;> exact ledger.rest rfl rfl devices calls rfl

private theorem countP_lt_succ (times : List ℕ) (T : ℕ) :
    times.countP (· < T + 1) = times.countP (· < T) + times.count T := by
  induction times with
  | nil => rfl
  | cons U times ih =>
    simp only [List.countP_cons, List.count_cons, decide_eq_true_eq, beq_iff_eq, ih]
    split_ifs <;> omega

/-- When a slot ends, its calls are past. -/
private theorem past_tick {timer : Timer.State (c + 1)} (next : timer.time = s.timer.time + 1) :
    ({ s with timer } : Os c N).past = s.past + tally (fun cpu => cpu.runTimes.count s.timer.time) s.cpus := by
  rw [past, past, tally, tally, tally, ← Finset.sum_add_distrib]
  refine Finset.sum_congr rfl fun i _ => ?_
  simp only [next]
  exact countP_lt_succ _ _

private theorem Ledger.clock (small : N ≤ maxQueueSize) (levels : ∀ p, cfg.level p < maxPrio)
    (reached : Reachable cfg env s)
    (ledger : Ledger cfg p s) {timer : Timer.State (c + 1)} (moved : Clock s.timer timer)
    (calls : calls cfg { s with timer } p = calls cfg s p) : Ledger cfg p { s with timer } := by
  by_cases same : timer.time = s.timer.time
  · exact ledger.rest same rfl (fun i => moved.same _) calls rfl
  · have linked := reached.linked
    obtain ⟨next, -⟩ := moved.time linked.inv same
    intro alive
    have before := ledger alive
    have none : ({ s with timer } : Os c N).credit p = 0 := by
      refine if_neg ?_
      rintro ⟨i, slot, through⟩
      have there : (s.cpus i).loc ≠ .stopped := by
        rw [show (s.cpus i).loc = _ from slot]
        simp
      obtain ⟨_, -, -, past⟩ := through_at_tick linked moved same there
      exact past through
    rw [none, past_tick next, calls]
    by_cases loaded : cfg.freeTime N ≤ s.timer.time
    · have slot : c ≤ tally (fun cpu => cpu.runTimes.count s.timer.time) s.cpus + (c - 1) * s.credit p := by
        obtain ⟨i, through⟩ | all := full_at_tick small levels reached moved same loaded alive
        · have own : s.credit p = 1 := if_pos ⟨i, through⟩
          obtain ⟨-, waiting, counted⟩ := tick_counted linked moved same _ ((linked.cpu i).attached (by simp [through.1]))
          have ran := List.one_le_count_iff.mpr ((reached.ranLast i p through.1).2 waiting _ counted)
          have some := le_tally (fun cpu : Cpu (Fin N) => cpu.runTimes.count s.timer.time) s.cpus i
          rw [own]
          omega
        · have each : ∑ _i : Fin c, 1 ≤ tally (fun cpu => cpu.runTimes.count s.timer.time) s.cpus :=
            Finset.sum_le_sum fun i _ => List.one_le_count_iff.mpr (all i)
          rw [Finset.sum_const, Finset.card_univ, Fintype.card_fin, smul_eq_mul, Nat.mul_one] at each
          omega
      have gain : c * (timer.time - cfg.freeTime N) = c * (s.timer.time - cfg.freeTime N) + c := by
        rw [next, Nat.sub_add_comm loaded, Nat.mul_succ]
      change c * (timer.time - cfg.freeTime N) + (c - 1) * 0 ≤ s.past + _ + (c - 1) * Os.calls cfg s p
      omega
    · have early : timer.time - cfg.freeTime N = 0 := by omega
      change c * (timer.time - cfg.freeTime N) + (c - 1) * 0 ≤ _
      rw [early]
      exact Nat.zero_le _

private theorem Reachable.ledger (small : N ≤ maxQueueSize) (levels : ∀ p, cfg.level p < maxPrio)
    (reached : Reachable cfg env s) (p : Fin N) : Ledger cfg p s := by
  apply Reachable.keeps (Ledger cfg p) reached
  · intro _
    have none : (Os.init cfg : Os c N).credit p = 0 := if_neg (by rintro ⟨i, slot, -⟩; cases slot)
    have start : (Os.init cfg : Os c N).timer.time - cfg.freeTime N = 0 := Nat.zero_sub _
    rw [none, start]
    exact Nat.zero_le _
  · intro now label after before ledger moved
    have same := fun other => moved.calls other p
    cases moved with
    | clock moved quiet => exact ledger.clock small levels before moved (same quiet)
    | cpu moved => exact moved.ledger before ledger
    | loader moved => exact moved.ledger ledger (same (by simp))
    | stop stopped finished => exact ledger.rest rfl rfl (fun _ => .refl _) rfl rfl

private theorem AllFreed.calls_le (freed : s.AllFreed) (reached : Reachable cfg env s) (p : Fin N) :
    max 1 (cfg.text p).length ≤ s.timer.time + 1 := by
  apply Nat.max_le.mpr
  refine ⟨Nat.succ_pos _, ?_⟩
  by_cases empty : cfg.text p = []
  · simp [empty]
  · have executed := reached.freed_executed (freed p)
    have within := reached.executed_le (p := p) (by rw [executed]; exact empty)
    rw [executed] at within
    omega

end Os

end SimpleOS.Model
