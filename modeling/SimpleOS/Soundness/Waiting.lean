import Mathlib.Algebra.BigOperators.Group.Finset.Piecewise
import Mathlib.Algebra.Order.Group.Int
import SimpleOS.Soundness.Response

/-! # How long a process waits behind others

A process in a ready queue waits for the rest of the more urgent programs, and for a time slot of each process in front
of it. What the CPUs still owe to these never grows while the process waits, and every slot uses up one unit of it for
each CPU.
-/

namespace SimpleOS.Model

open Lib

namespace Sched

variable {ι : Type} [DecidableEq ι] {s t : Sched ι} {prio : ι → ℕ} {p q : ι}

/-- The processes in front of one of the given priority. -/
def ahead (s : Sched ι) (level : ℕ) (p : ι) : ℕ :=
  if bound : level < maxPrio then (s.mlqReadyQueue ⟨level, bound⟩).idxOf p else 0

private theorem ahead_eq {level : Fin maxPrio} {k : ℕ} (same : level = k) : s.ahead k p =
    (s.mlqReadyQueue level).idxOf p := by
  subst same
  rw [ahead, dif_pos level.isLt]

private theorem ahead_congr (same : t.mlqReadyQueue = s.mlqReadyQueue) (k : ℕ) (p : ι) : t.ahead k p = s.ahead k p := by
  simp only [ahead, same]

/-- A ready process is in the queue of its priority. -/
private theorem Sorted.own_queue (sorted : s.Sorted prio) (ready : s.queued p ≠ 0) :
    ∃ level : Fin maxPrio, level = prio p ∧ p ∈ s.mlqReadyQueue level := by
  by_contra nowhere
  refine ready (queued_eq_zero_iff.mpr fun level member => nowhere ⟨level, sorted level p member, member⟩)

/-- Taking another process either leaves the queue alone or shortens it in front. -/
private theorem ahead_getProc (sorted : s.Sorted prio) (ready : s.queued p ≠ 0) (other : q ≠ p)
    (got : s.getProc = (t, some q)) :
    t.ahead (prio p) p + (if prio q < prio p then 0 else 1) = s.ahead (prio p) p := by
  obtain ⟨level, own, member⟩ := sorted.own_queue ready
  obtain ⟨first, rest, queue, changed, -⟩ := getProc_some got
  have taken := sorted first q (by rw [queue]; exact List.mem_cons_self)
  have urgent := getProc_urgent sorted ready got
  rw [ahead_eq own, ahead_eq own, changed]
  by_cases same : level = first
  · subst same
    rw [Function.update_self, queue, List.idxOf_cons_ne _ other, if_neg (by omega)]
  · have different : (level : ℕ) ≠ first := fun equal => same (Fin.ext equal)
    rw [Function.update_of_ne same, if_pos (by omega), Nat.add_zero]

/-- A new process comes behind those that wait. -/
private theorem ahead_addProc (sorted : s.Sorted prio) (ready : s.queued p ≠ 0) (k : ℕ) (q : ι) :
    (s.addProc k q).ahead (prio p) p = s.ahead (prio p) p := by
  obtain ⟨level, own, member⟩ := sorted.own_queue ready
  rw [ahead_eq own, ahead_eq own]
  by_cases accepted : s.Accepts k
  · obtain ⟨last, -, changed⟩ := addProc_accepted (p := q) accepted
    rw [changed]
    by_cases same : level = last
    · subst same
      rw [Function.update_self, List.idxOf_append_of_mem member]
    · rw [Function.update_of_ne same]
  · rw [addProc_refused accepted]

end Sched

namespace Os

open Timer

variable {c N : ℕ} {cfg : Config N} {env : Env} {s t : Os c N} {i : Fin c} {label : Label c} {p q : Fin N} {T : Int}

/-- The slots that count for a process of a CPU: those of a more urgent one are in its program. -/
def budget (cfg : Config N) (p q : Fin N) (left : Int) : Int := if cfg.level q < cfg.level p then 0 else left

/-- What CPU `i` owes to its process before the next call of `get_proc`. -/
def owed (cfg : Config N) (p : Fin N) (s : Os c N) (i : Fin c) : Int :=
  match (s.cpus i).loc with
  | .top (some q) => budget cfg p q (s.cpus i).timeLeft
  | .recheck none => 1
  | .recheck (some q) => budget cfg p q (if (s.cpus i).timeLeft = 0 then cfg.timeSlot else (s.cpus i).timeLeft)
  | .run q => budget cfg p q (s.cpus i).timeLeft
  | .slot none => if s.Through i then 1 else 0
  | .slot (some q) => budget cfg p q (s.cpus i).timeLeft + if s.Through i then 1 else 0
  | _ => 0

/-- The slots since `T` and those owed, as long as the CPU has not left. -/
def share (cfg : Config N) (p : Fin N) (T : Int) (s : Os c N) (i : Fin c) : Int :=
  match (s.cpus i).loc with
  | .leaving => 0
  | .stopped => 0
  | _ => s.timer.time - T + owed cfg p s i

/-- The calls that are left of the more urgent programs. -/
def backlog (cfg : Config N) (p : Fin N) (s : Os c N) : ℕ :=
  ∑ q with cfg.level q < cfg.level p, (max 1 (cfg.text q).length - calls cfg s q)

/-- What the queues owe: a time slot to each process in front, and the more urgent programs. -/
def queueOwes (cfg : Config N) (p : Fin N) (s : Os c N) : Int :=
  cfg.timeSlot * s.sched.ahead (cfg.level p) p + backlog cfg p s

private theorem backlog_congr (same : ∀ q, calls cfg t q = calls cfg s q) : backlog cfg p t = backlog cfg p s := by
  simp only [backlog, same]

/-- An instruction of a more urgent process takes it off its program. -/
private theorem CpuMove.backlog (before : Reachable cfg env s) (after : Reachable cfg env t)
    (moved : CpuMove cfg env s i t) (here : (s.cpus i).loc = .run q) :
    Os.backlog cfg p t + (if cfg.level q < cfg.level p then 1 else 0) = Os.backlog cfg p s := by
  have each (r : Fin N) : max 1 (cfg.text r).length - Os.calls cfg t r + (if q = r then 1 else 0) =
      max 1 (cfg.text r).length - Os.calls cfg s r := by
    have calls := moved.calls before r
    have bound := calls_le (after.loaded r)
    rw [here] at calls
    simp only [CpuLoc.run.injEq] at calls
    split_ifs at calls ⊢ <;> omega
  have own : (∑ r with cfg.level r < cfg.level p, if q = r then 1 else 0) =
      if cfg.level q < cfg.level p then 1 else 0 := by
    rw [Finset.sum_ite_eq]
    simp
  rw [Os.backlog, Os.backlog, ← own, ← Finset.sum_add_distrib]
  exact Finset.sum_congr rfl fun r _ => each r

/-- Nothing is run, and nobody in front of the process is taken. -/
private theorem queueOwes_congr (ahead : t.sched.ahead (cfg.level p) p = s.sched.ahead (cfg.level p) p)
    (calls : ∀ q, calls cfg t q = calls cfg s q) : queueOwes cfg p t = queueOwes cfg p s := by
  rw [queueOwes, queueOwes, ahead, backlog_congr calls]

/-- A CPU that takes a process owes it what the queue owed. -/
private theorem owes_take (before : Reachable cfg env s) {sched : Sched (Fin N)}
    (ready : s.sched.queued p ≠ 0) (still : sched.queued p ≠ 0) (got : s.sched.getProc = (sched, some q))
    (queues : t.sched = sched) (calls : ∀ q, calls cfg t q = calls cfg s q) :
    budget cfg p q cfg.timeSlot + queueOwes cfg p t = queueOwes cfg p s := by
  have other : q ≠ p := by
    rintro rfl
    have once := (before.accounted q).once
    have gone := Sched.getProc_queued (q := q) got
    rw [if_pos rfl] at gone
    rw [places] at once
    omega
  have ahead := Sched.ahead_getProc before.sorted ready other got
  rw [queueOwes, queueOwes, backlog_congr calls, queues, ← ahead, budget]
  split_ifs
  · simp
  · push_cast
    rw [Int.mul_add]
    omega

private theorem share_le (positive : 1 ≤ cfg.timeSlot) (before : Reachable cfg env s) (after : Reachable cfg env t)
    (ready : s.sched.queued p ≠ 0) (still : t.sched.queued p ≠ 0) (late : T ≤ s.timer.time)
    (taken : s.cpuStep cfg env i = some t) :
    share cfg p T t i + queueOwes cfg p t ≤ share cfg p T s i + queueOwes cfg p s := by
  have linked := before.linked
  have quota := before.quota positive i
  have moved := cpuStep_move taken
  have calls := moved.calls before
  have spends (q : Fin N) (here : (s.cpus i).loc = .run q) :
      backlog cfg p t + (if cfg.level q < cfg.level p then 1 else 0) = backlog cfg p s :=
    moved.backlog before after here
  have quiet (away : ∀ q, (s.cpus i).loc ≠ .run q) (q : Fin N) : Os.calls cfg t q = Os.calls cfg s q := by
    rw [calls, if_neg (away q), Nat.add_zero]
  have nobody {sched : Sched (Fin N)} (got : s.sched.getProc = (sched, none)) : False := by
    obtain ⟨empty, -⟩ := Sched.getProc_none got
    exact ready (Sched.queued_eq_zero_iff.mpr fun level => by simp [empty level])
  have go (away : ∀ q, (s.cpus i).loc ≠ .run q)
      (ahead : t.sched.ahead (cfg.level p) p = s.sched.ahead (cfg.level p) p)
      (less : share cfg p T t i ≤ share cfg p T s i) :
      share cfg p T t i + queueOwes cfg p t ≤ share cfg p T s i + queueOwes cfg p s := by
    have same : queueOwes cfg p t = queueOwes cfg p s := queueOwes_congr ahead (quiet away)
    omega
  cases moved with
  | @take q sched empty got =>
    have vacant : (s.cpus i).timeLeft = 0 := quota.idle (by obtain here | here := empty <;> rw [here] <;> rfl)
    have away : ∀ r, (s.cpus i).loc ≠ .run r := by obtain here | here := empty <;> simp [here]
    have owes := owes_take before ready still got rfl (quiet away)
    have share' : share cfg p T s i = s.timer.time - T := by
      obtain here | here := empty <;> simp [share, owed, here]
    rw [share', ← owes]
    simp only [share, owed, setCpu_cpus_self, setCpu_timer, vacant, if_true]
    omega
  | idle here got => exact (nobody got).elim
  | miss here got => exact (nobody got).elim
  | retire here finished =>
    apply go (by simp [here]) rfl
    have left := quota.nonneg
    simp only [share, owed, budget, here, setCpu_cpus_self, setCpu_timer]
    split_ifs <;> omega
  | @put q here unfinished spent =>
    have ahead : (s.sched.putProc (s.mem.procs q).prio q).ahead (cfg.level p) p = s.sched.ahead (cfg.level p) p :=
      (Sched.ahead_congr Sched.putProc_mlqReadyQueue _ _).trans (Sched.ahead_addProc before.sorted ready _ q)
    apply go (by simp [here]) ahead
    simp only [share, owed, budget, here, spent, setCpu_cpus_self, setCpu_timer]
    split_ifs <;> omega
  | keep here unfinished left =>
    apply go (by simp [here]) rfl
    simp [share, owed, here, left]
  | leave here done =>
    apply go (by simp [here]) rfl
    simp only [share, owed, here, setCpu_cpus_self]
    omega
  | skip here pending =>
    apply go (by simp [here]) rfl
    simp only [share, owed, here, setCpu_cpus_self, setCpu_timer]
    split_ifs <;> omega
  | @dispatch q timeLeft here =>
    rw [cpuStep_dispatch here, Option.some.injEq] at taken
    rw [← taken] at quiet go ⊢
    apply go (by simp [here]) rfl
    simp [share, owed, here]
  | @run q mem status here ran =>
    have outside := (linked.cpu i).outside (by simp [here])
    have through (cpu : Cpu (Fin N)) (executed : Fin N → List Inst) :
        ({ s with mem, executed }.setCpu i cpu).Through i := .inl outside
    rw [queueOwes, queueOwes, ← spends q here]
    simp only [share, owed, budget, here, setCpu_cpus_self, setCpu_timer, setCpu_sched, through, if_true]
    push_cast
    split_ifs <;> omega
  | @start proc here outside =>
    apply go (by simp [here]) rfl
    have through : s.Through i := .inl outside
    cases proc with
    | none =>
      have time : (s.timer.start (cpuDev i)).time = s.timer.time := rfl
      simp only [share, owed, here, through, if_true, time]
      split_ifs <;> omega
    | some q =>
      have time : (s.timer.start (cpuDev i)).time = s.timer.time := rfl
      simp only [share, owed, here, through, if_true, time]
      split_ifs <;> omega
  | @sleep proc here inside raised =>
    apply go (by simp [here]) rfl
    have time : (s.timer.look (cpuDev i)).time = s.timer.time := rfl
    have through : ({ s with timer := s.timer.look (cpuDev i) } : Os c N).Through i ↔ s.Through i :=
      Through.congr rfl (look_same inside raised _)
    cases proc <;> simp [share, owed, here, through, time]
  | @wakeUp proc here inside released =>
    apply go (by simp [here]) rfl
    have time : (s.timer.look (cpuDev i)).time = s.timer.time := rfl
    have past := not_through linked here inside released
    cases proc <;> simp [share, owed, here, past, time]
  | detach here =>
    apply go (by simp [here]) rfl
    simp [share, here]

/-- A CPU that does not move owes what it did. -/
private theorem share_congr (cpus : t.cpus i = s.cpus i) (time : t.timer.time = s.timer.time)
    (device : (s.timer.devs (cpuDev i)).Same (t.timer.devs (cpuDev i))) : share cfg p T t i = share cfg p T s i := by
  simp only [share, owed, cpus, time, Through.congr time device]

/-- At the end of a slot a CPU pays it with what it owes. -/
private theorem share_tick (linked : Linked s.timer s.cpus s.loader) {timer : Timer.State (c + 1)}
    (moved : Clock s.timer timer)
    (ticked : timer.time ≠ s.timer.time) (i : Fin c) : share cfg p T { s with timer } i = share cfg p T s i := by
  by_cases stopped : (s.cpus i).loc = .stopped
  · simp [share, stopped]
  · obtain ⟨proc, slot, through, past⟩ := through_at_tick linked moved ticked stopped
    obtain ⟨next, -⟩ := moved.time linked.inv ticked
    cases proc <;> simp only [share, owed, slot, through, past, if_true, if_false, next] <;> push_cast <;> omega

/-- What all together owe. -/
def debt (cfg : Config N) (p : Fin N) (T : Int) (s : Os c N) : Int := ∑ i, share cfg p T s i + queueOwes cfg p s

private theorem debt_congr (shares : ∀ i, share cfg p T t i = share cfg p T s i)
    (owes : queueOwes cfg p t = queueOwes cfg p s) : debt cfg p T t = debt cfg p T s := by
  rw [debt, debt, owes, Finset.sum_congr rfl fun i _ => shares i]

private theorem LoaderMove.debt (before : Reachable cfg env s) (ready : s.sched.queued p ≠ 0)
    (moved : LoaderMove cfg s t) (calls : ∀ q, calls cfg t q = calls cfg s q) : debt cfg p T t = debt cfg p T s := by
  have time : t.timer.time = s.timer.time := by cases moved <;> rfl
  have ahead : t.sched.ahead (cfg.level p) p = s.sched.ahead (cfg.level p) p := by
    cases moved with
    | add here next => exact Sched.ahead_addProc before.sorted ready _ _
    | _ => rfl
  apply debt_congr
  · intro i
    obtain ⟨cpus, devices⟩ := moved.others i
    exact share_congr (congrFun cpus i) time (devices ▸ .refl _)
  · exact queueOwes_congr ahead calls

private theorem debt_clock (before : Reachable cfg env s) {timer : Timer.State (c + 1)} (moved : Clock s.timer timer)
    (calls : ∀ q, calls cfg { s with timer } q = calls cfg s q) : debt cfg p T { s with timer } = debt cfg p T s := by
  apply debt_congr
  · intro i
    by_cases same : timer.time = s.timer.time
    · exact share_congr (by rfl) same (moved.same _)
    · exact share_tick before.linked moved same i
  · exact queueOwes_congr (by rfl) calls

/-- While the process waits, the debt does not grow. -/
private theorem debt_le (positive : 1 ≤ cfg.timeSlot) (before : Reachable cfg env s) (ready : s.sched.queued p ≠ 0)
    (still : t.sched.queued p ≠ 0) (late : T ≤ s.timer.time) (taken : Step cfg env s label t) :
    debt cfg p T t ≤ debt cfg p T s := by
  have after := before.next taken
  have move := Step.move taken
  have same := move.calls
  cases move with
  | clock moved quiet => exact (debt_clock before moved (same quiet)).le
  | @cpu i _ moved =>
    have time : t.timer.time = s.timer.time := by cases moved <;> rfl
    apply sum_add_le_of_others i
    · intro j other
      obtain ⟨cpus, devices⟩ := moved.others other
      exact share_congr cpus time (devices ▸ .refl _)
    · exact share_le positive before after ready still late taken
  | loader moved => exact (moved.debt before ready (same (by simp))).le
  | stop stopped finished =>
    apply le_of_eq
    apply debt_congr
    · exact fun i => share_congr (by rfl) (by rfl) (.refl _)
    · exact queueOwes_congr (by rfl) (same (by simp))

/-- A CPU never owes less than nothing or more than a time slot. -/
private theorem Reachable.owed_bounds (positive : 1 ≤ cfg.timeSlot) (reached : Reachable cfg env s) (p : Fin N)
    (i : Fin c) : 0 ≤ owed cfg p s i ∧ owed cfg p s i ≤ cfg.timeSlot := by
  have quota := reached.quota positive i
  have nonneg := quota.nonneg
  have le := quota.le
  have used := reached.usedOne positive i
  rw [owed]
  split
  · rw [budget]
    split_ifs <;> omega
  · omega
  · rw [budget]
    split_ifs <;> omega
  · rw [budget]
    split_ifs <;> omega
  · split_ifs <;> omega
  · rename_i q here
    have one := used q here
    rw [budget]
    split_ifs <;> omega
  · omega

private theorem Reachable.share_nonneg (positive : 1 ≤ cfg.timeSlot) (reached : Reachable cfg env s)
    (late : T ≤ s.timer.time) (p : Fin N) (i : Fin c) : 0 ≤ share cfg p T s i := by
  have owed := (reached.owed_bounds positive p i).1
  rw [share]
  split <;> omega

/-- A CPU that has not left has been there all the time. -/
private theorem Reachable.le_share (positive : 1 ≤ cfg.timeSlot) (reached : Reachable cfg env s) (p : Fin N)
    (here : (s.cpus i).loc ≠ .leaving ∧ (s.cpus i).loc ≠ .stopped) : s.timer.time - T ≤ share cfg p T s i := by
  have owed := (reached.owed_bounds positive p i).1
  rw [share]
  split <;> simp_all

/-- The CPUs still in their loops have been there in every slot. -/
private theorem Reachable.inLoop_le_shares (positive : 1 ≤ cfg.timeSlot) (reached : Reachable cfg env s) (p : Fin N)
    (late : T ≤ s.timer.time) : s.inLoop.card * (s.timer.time - T) ≤ ∑ i, share cfg p T s i := by
  have each : s.inLoop.card • (s.timer.time - T) ≤ ∑ i ∈ s.inLoop, share cfg p T s i :=
    Finset.card_nsmul_le_sum _ _ _ fun i inside => reached.le_share positive p (mem_inLoop.mp inside)
  have rest : ∑ i ∈ s.inLoop, share cfg p T s i ≤ ∑ i, share cfg p T s i :=
    Finset.sum_le_sum_of_subset_of_nonneg (Finset.subset_univ _) fun i _ _ => reached.share_nonneg positive late p i
  rw [nsmul_eq_mul] at each
  exact each.trans rest

private theorem ReadyRun.debt_le (positive : 1 ≤ cfg.timeSlot) (reached : Reachable cfg env s) {labels : List (Label c)}
    (run : ReadyRun cfg env p s labels t) (still : t.sched.queued p ≠ 0) :
    debt cfg p s.timer.time t ≤ debt cfg p s.timer.time s ∧ s.timer.time ≤ t.timer.time := by
  induction run with
  | start => exact ⟨le_rfl, le_rfl⟩
  | next earlier taken ih =>
    obtain ⟨ready, taken⟩ := taken
    obtain ⟨paid, late⟩ := ih ready
    have before := ReadyRun.reachable earlier reached
    have later := time_le before taken
    have step := Os.debt_le positive before ready still (T := s.timer.time) (by omega) taken
    exact ⟨step.trans paid, late.trans later⟩

/-- At the start a CPU owes at most a time slot. -/
private theorem Reachable.debt_start (positive : 1 ≤ cfg.timeSlot) (reached : Reachable cfg env s) (p : Fin N) :
    debt cfg p s.timer.time s ≤ c * cfg.timeSlot + queueOwes cfg p s := by
  have each (i : Fin c) : share cfg p s.timer.time s i ≤ cfg.timeSlot := by
    have owed := (reached.owed_bounds positive p i).2
    rw [share]
    split <;> omega
  have all : ∑ i, share cfg p s.timer.time s i ≤ Finset.univ.card • cfg.timeSlot :=
    Finset.sum_le_card_nsmul Finset.univ _ _ fun i _ => each i
  rw [Finset.card_univ, Fintype.card_fin, nsmul_eq_mul] at all
  rw [debt]
  omega

/-- A ready process waits at most for the rest of the more urgent programs, for a time slot of each process in front of
it and for one more on each CPU, shared by the CPUs still in their loops, of which there is one. -/
theorem waits_for (positive : 1 ≤ cfg.timeSlot) (reached : Reachable cfg env s) {labels : List (Label c)}
    (run : ReadyRun cfg env p s labels t) (still : t.sched.queued p ≠ 0) :
    t.inLoop.card * ((t.timer.time : Int) - s.timer.time) ≤
      cfg.timeSlot * (c + s.sched.ahead (cfg.level p) p) +
        (∑ q with cfg.level q < cfg.level p, (max 1 (cfg.text q).length - calls cfg s q) : ℕ) ∧
    (0 < c → t.inLoop.Nonempty) := by
  refine ⟨?_, fun someCpu => (run.reachable reached).inLoop_nonempty someCpu still⟩
  obtain ⟨paid, late⟩ := ReadyRun.debt_le positive reached run still
  have shares := (run.reachable reached).inLoop_le_shares positive p (T := s.timer.time) (by omega)
  have owes : 0 ≤ queueOwes cfg p t := by
    have slots : 0 ≤ cfg.timeSlot * (t.sched.ahead (cfg.level p) p : Int) := Int.mul_nonneg (by omega) (by omega)
    rw [queueOwes]
    omega
  have start := reached.debt_start positive p
  have split : cfg.timeSlot * (c + s.sched.ahead (cfg.level p) p) =
      c * cfg.timeSlot + cfg.timeSlot * s.sched.ahead (cfg.level p) p := by
    rw [Int.mul_add, Int.mul_comm]
  rw [debt] at paid
  rw [queueOwes, backlog] at start
  rw [split]
  omega

/-- A process waits for the last two instructions of a more urgent one. -/
theorem waits_for_of_two :
    let cfg : Config 2 := { Config.atOnce 16 (fun _ => List.replicate 3 ⟨.calc, 0, 0, 0, 0⟩) 0 with
      timeSlot := 2
      prio p := if p = 0 then 0 else 5 }
    let env : Env := ⟨.head, fun _ => 0⟩
    ∃ (labels : List (Label 1)) (s t : Os 1 2), Reachable cfg env s ∧ ReadyRun cfg env 1 s labels t ∧
      s.timer.time = 1 ∧ t.timer.time = 3 ∧ calls cfg s 0 = 1 ∧ t.inLoop.card = 1 ∧
      t.inLoop.card * ((t.timer.time : Int) - s.timer.time) ≤ 2 * (1 + s.sched.ahead 5 1) +
        (∑ q with cfg.level q < cfg.level 1, (max 1 (cfg.text q).length - calls cfg s q) : ℕ) := by
  intro cfg env
  let first : List (Label 1) := List.replicate 4 .loader ++ List.replicate 5 (.cpu 0) ++ List.replicate 5 .timer ++
    List.replicate 3 .loader
  let second : List (Label 1) := List.replicate 2 .loader ++ [.timer] ++ List.replicate 6 (.cpu 0) ++
    List.replicate 6 .timer ++ List.replicate 3 .loader ++ [.timer] ++ List.replicate 7 (.cpu 0) ++
    List.replicate 5 .timer
  let next (now : Os 1 2) (label : Label 1) := if now.sched.queued 1 ≠ 0 then now.step cfg env label else none
  have computed : ((exec cfg env first).bind fun s : Os 1 2 => (second.foldlM next s).map fun t =>
      (s.timer.time, t.timer.time, calls cfg s 0, t.inLoop.card, t.sched.queued 1)) =
      some (1, 3, 1, 1, 1) := by decide +kernel
  obtain ⟨s, reached, rest⟩ := Option.bind_eq_some_iff.mp computed
  obtain ⟨t, taken, values⟩ := Option.map_eq_some_iff.mp rest
  obtain ⟨before, values⟩ := Prod.mk.inj values
  obtain ⟨after, values⟩ := Prod.mk.inj values
  obtain ⟨called, values⟩ := Prod.mk.inj values
  obtain ⟨staying, queued⟩ := Prod.mk.inj values
  have run : ReadyRun cfg env 1 s second t := Run.of_guarded_foldlM taken
  have still : t.sched.queued 1 ≠ 0 := by omega
  obtain ⟨bound, -⟩ := waits_for (by decide) (.of_exec reached) run still
  exact ⟨second, s, t, .of_exec reached, run, before, after, called, staying, bound⟩

end Os

end SimpleOS.Model
