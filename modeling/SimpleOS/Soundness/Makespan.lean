import Mathlib.Order.Interval.Finset.Nat
import SimpleOS.Soundness.Progress

/-! # When everything is done

Every call of `run` executes an instruction, except one for each program without instructions. No slot is wasted, so
the simulator needs no more slots than there are calls; and only so many steps fit in a slot, so it needs no more
than so many steps, in whatever order the threads take them.
-/

namespace SimpleOS.Model

/-- The calls of `run` that a configuration needs. -/
def Config.work {N : ℕ} (cfg : Config N) : ℕ := ∑ p, max 1 (cfg.text p).length

namespace Os

open Lib Timer

variable {c N : ℕ} {cfg : Config N} {env : Env} {s t : Os c N} {i : Fin c} {label : Label c} {p q : Fin N}

/-- The process waits for its next call of `run`. -/
def Waits (s : Os c N) (p : Fin N) : Prop :=
  s.loader.i ≤ p ∨ s.sched.queued p ≠ 0 ∨ ∃ i, (s.cpus i).loc = .recheck (some p) ∨ (s.cpus i).loc = .run p

/-- A process with a program waits only when it has an instruction left. -/
def Fresh (cfg : Config N) (p : Fin N) (s : Os c N) : Prop := cfg.text p ≠ [] → s.Waits p → ¬s.Finished p

private theorem Fresh.go (fresh : Fresh cfg p s) (waits : t.Waits p → s.Waits p) (mem : t.mem = s.mem) :
    Fresh cfg p t := by
  intro program waiting finished
  rw [Finished, mem] at finished
  exact fresh program (waits waiting) finished

/-- CPU `i` goes where nothing waits, and no process joins a queue. -/
private theorem Waits.of_cpu {cpu : Cpu (Fin N)} (changed : t.cpus = Function.update s.cpus i cpu)
    (away : cpu.loc ≠ .recheck (some p) ∧ cpu.loc ≠ .run p) (loader : t.loader = s.loader)
    (queues : t.sched.queued p ≤ s.sched.queued p) (waits : t.Waits p) : s.Waits p := by
  obtain later | queued | ⟨j, here⟩ := waits
  · exact .inl (loader ▸ later)
  · exact .inr (.inl (by omega))
  · by_cases own : j = i
    · subst own
      rw [changed, Function.update_self] at here
      obtain here | here := here
      · exact absurd here away.1
      · exact absurd here away.2
    · rw [changed, Function.update_of_ne own] at here
      exact .inr (.inr ⟨j, here⟩)

/-- The next instruction of a process is executed by the CPU that holds it, and then the process waits no more. -/
theorem Fresh.run (reached : Reachable cfg env s) (fresh : Fresh cfg p s) (here : (s.cpus i).loc = .run q)
    {mem : Machine (Fin N)} {status : Int} (ran : s.mem.run env s.sched.runningList q = .ok (mem, status))
    (cpus : t.cpus =
      Function.update s.cpus i ⟨.slot (some q), (s.cpus i).timeLeft - 1, (s.cpus i).runTimes ++ [s.timer.time]⟩)
    (loader : t.loader = s.loader) (sched : t.sched = s.sched) (stored : t.mem = mem) : Fresh cfg p t := by
  intro program waiting
  have before : s.Waits p := by
    refine Waits.of_cpu cpus ?_ loader (by rw [sched]) waiting
    simp
  by_cases own : p = q
  · subst own
    exfalso
    have holds : (s.cpus i).loc.proc = some p := by rw [here]; rfl
    have once := (reached.accounted p).once
    have one := one_le_held holds
    rw [places] at once
    obtain later | queued | ⟨j, there⟩ := waiting
    · rw [loader] at later
      have none := ((reached.accounted p).unborn later).1
      rw [places] at none
      omega
    · rw [sched] at queued
      omega
    · have other : j ≠ i := by
        rintro rfl
        rw [cpus, Function.update_self] at there
        simp at there
      rw [cpus, Function.update_of_ne other] at there
      refine other ((reached.accounted p).holder_unique ?_ holds)
      obtain there | there := there <;> rw [there] <;> rfl
  · have unfinished := fresh program before
    obtain ⟨_, same⟩ | ⟨ins, next, headers⟩ := Machine.run_header ran
    · rw [Finished, stored, same]
      exact unfinished
    · have header := headers p
      rw [if_neg own] at header
      obtain ⟨_, text, _, pc⟩ := Header.mk.inj header
      rw [Finished, stored, text, pc]
      exact unfinished

private theorem CpuMove.fresh (reached : Reachable cfg env s) (fresh : Fresh cfg p s) (moved : CpuMove cfg env s i t) :
    Fresh cfg p t := by
  -- a CPU that holds `q` in one of the places where a process waits
  have holding {t : Os c N} {cpu : Cpu (Fin N)} {q : Fin N} (cpus : t.cpus = Function.update s.cpus i cpu)
      (loc : cpu.loc = .recheck (some q) ∨ cpu.loc = .run q) (loader : t.loader = s.loader)
      (queues : t.sched.queued p ≤ s.sched.queued p) (mem : t.mem = s.mem)
      (own : p = q → cfg.text p ≠ [] → ¬s.Finished p) : Fresh cfg p t := by
    by_cases same : p = q
    · intro program _ finished
      rw [Finished, mem] at finished
      exact own same program finished
    · refine fresh.go (Waits.of_cpu cpus ?_ loader queues) mem
      have different : q ≠ p := fun equal => same equal.symm
      obtain loc | loc := loc <;> simp [loc, different]
  have away {t : Os c N} {cpu : Cpu (Fin N)} (cpus : t.cpus = Function.update s.cpus i cpu)
      (loc : cpu.loc ≠ .recheck (some p) ∧ cpu.loc ≠ .run p) (loader : t.loader = s.loader)
      (queues : t.sched.queued p ≤ s.sched.queued p) (mem : t.mem = s.mem) : Fresh cfg p t :=
    fresh.go (Waits.of_cpu cpus loc loader queues) mem
  cases moved with
  | @take q sched empty got =>
    have queues := Sched.getProc_queued (q := p) got
    have below : sched.queued p ≤ s.sched.queued p := by omega
    refine holding rfl (.inl rfl) rfl below rfl fun same program => ?_
    subst same
    rw [if_pos rfl] at queues
    exact fresh program (.inr (.inl (by omega)))
  | idle here got => exact away rfl (by simp) rfl (Sched.queued_congr (Sched.getProc_none got).2.1).le rfl
  | miss here got => exact away rfl (by simp) rfl (Sched.queued_congr (Sched.getProc_none got).2.1).le rfl
  | retire here finished => exact away rfl (by simp) rfl le_rfl rfl
  | @put q here unfinished spent =>
    by_cases same : p = q
    · subst same
      exact fun _ _ finished => unfinished finished
    · refine away rfl (by simp) rfl ?_ rfl
      rw [setCpu_sched, Sched.putProc_queued]
      by_cases accepted : s.sched.Accepts (s.mem.procs q).prio
      · rw [Sched.addProc_queued accepted, if_neg fun equal => same equal.symm, Nat.add_zero]
      · rw [Sched.addProc_refused accepted]
  | keep here unfinished left => exact holding rfl (.inl rfl) rfl le_rfl rfl fun same _ => same ▸ unfinished
  | leave here done => exact away rfl (by simp) rfl le_rfl rfl
  | skip here pending => exact away rfl (by simp) rfl le_rfl rfl
  | dispatch here =>
    refine holding rfl (.inr rfl) rfl le_rfl rfl fun same program => ?_
    subst same
    exact fresh program (.inr (.inr ⟨i, .inl here⟩))
  | run here ran => exact fresh.run reached here ran rfl rfl rfl rfl
  | start here outside => exact fresh.go id rfl
  | sleep here inside raised => exact fresh.go id rfl
  | wakeUp here inside released => exact away rfl (by simp) rfl le_rfl rfl
  | detach here => exact away rfl (by simp) rfl le_rfl rfl

private theorem LoaderMove.fresh (fresh : Fresh cfg p s) (moved : LoaderMove cfg s t) : Fresh cfg p t := by
  cases moved with
  | @add q here next =>
    refine fresh.go ?_ rfl
    rintro (later | queued | there)
    · exact .inl (by change s.loader.i + 1 ≤ p at later; omega)
    · by_cases same : p = q
      · exact .inl (by rw [same, next])
      · refine .inr (.inl ?_)
        change (s.sched.addProc (s.mem.procs q).prio q).queued p ≠ 0 at queued
        by_cases accepted : s.sched.Accepts (s.mem.procs q).prio
        · rw [Sched.addProc_queued accepted, if_neg fun equal => same equal.symm, Nat.add_zero] at queued
          exact queued
        · rw [Sched.addProc_refused accepted] at queued
          exact queued
    · exact .inr (.inr there)
  | _ => exact fresh.go id rfl

private theorem Reachable.fresh (reached : Reachable cfg env s) (p : Fin N) : Fresh cfg p s := by
  apply Reachable.keeps (Fresh cfg p) reached
  · intro program _ finished
    exact program (List.length_eq_zero_iff.mp finished.symm)
  · intro now label after before fresh moved
    cases moved with
    | clock moved => exact fresh.go id rfl
    | cpu moved => exact moved.fresh before fresh
    | loader moved => exact moved.fresh fresh
    | stop stopped finished => exact fresh.go id rfl

/-- The CPU has called `run` for the process and not yet looked at it again. -/
def Tried (p : Fin N) (cpu : Cpu (Fin N)) : Prop := cpu.loc = .slot (some p) ∨ cpu.loc = .top (some p)

/-- A program without instructions has had its call of `run`. -/
def Spent (s : Os c N) (p : Fin N) : Prop := s.freed p = true ∨ ∃ i, Tried p (s.cpus i)

instance (p : Fin N) (cpu : Cpu (Fin N)) : Decidable (Tried p cpu) := inferInstanceAs (Decidable (_ ∨ _))

instance (s : Os c N) (p : Fin N) : Decidable (s.Spent p) := inferInstanceAs (Decidable (_ ∨ ∃ _, _))

/-- The calls of `run` for a process so far. -/
def calls (cfg : Config N) (s : Os c N) (p : Fin N) : ℕ :=
  if cfg.text p = [] then if s.Spent p then 1 else 0 else (s.mem.procs p).pc

/-- The calls of `run` in all CPUs. -/
def runs (s : Os c N) : ℕ := tally (·.runTimes.length) s.cpus

theorem calls_le (loaded : Loaded cfg s p) : calls cfg s p ≤ max 1 (cfg.text p).length := by
  rw [calls]
  have inside := loaded.pc_le
  split_ifs
  · exact Nat.le_max_left _ _
  · exact Nat.zero_le _
  · omega

/-- A CPU goes on without a call of `run`. -/
theorem Spent.congr {cpu : Cpu (Fin N)} (cpus : t.cpus = Function.update s.cpus i cpu) (freed : t.freed p = s.freed p)
    (same : Tried p cpu ↔ Tried p (s.cpus i)) : t.Spent p ↔ s.Spent p := by
  have tried (j : Fin c) : Tried p (t.cpus j) ↔ Tried p (s.cpus j) := by
    rw [cpus]
    by_cases own : j = i
    · subst own
      rw [Function.update_self]
      exact same
    · rw [Function.update_of_ne own]
  rw [Spent, Spent, freed]
  simp only [tried]

private theorem calls_congr (mem : t.mem = s.mem) (spent : cfg.text p = [] → (t.Spent p ↔ s.Spent p)) :
    calls cfg t p = calls cfg s p := by
  rw [calls, calls, mem]
  split_ifs with empty after before before
  · rfl
  · exact absurd ((spent empty).mp after) before
  · exact absurd ((spent empty).mpr before) after
  · rfl
  · rfl

/-- A call of `run` is one more call of its process: an instruction, or the only call of an empty program. -/
private theorem calls_run (reached : Reachable cfg env s) (here : (s.cpus i).loc = .run q) {mem : Machine (Fin N)}
    {status : Int} (ran : s.mem.run env s.sched.runningList q = .ok (mem, status))
    (cpus : t.cpus =
      Function.update s.cpus i ⟨.slot (some q), (s.cpus i).timeLeft - 1, (s.cpus i).runTimes ++ [s.timer.time]⟩)
    (freed : t.freed = s.freed) (stored : t.mem = mem) (p : Fin N) :
    calls cfg t p = calls cfg s p + if (s.cpus i).loc = .run p then 1 else 0 := by
  have holds : (s.cpus i).loc.proc = some q := by rw [here]; rfl
  by_cases own : q = p
  · subst own
    rw [if_pos here]
    by_cases empty : cfg.text q = []
    · have after : t.Spent q := .inr ⟨i, .inl (by rw [cpus, Function.update_self])⟩
      have before : ¬s.Spent q := by
        rintro (ended | ⟨j, tried⟩)
        · have none := ((reached.accounted q).freed ended).1
          have one := one_le_places holds
          omega
        · have same : j = i := by
            refine (reached.accounted q).holder_unique ?_ holds
            obtain tried | tried := tried <;> rw [tried] <;> rfl
          subst same
          simp [Tried, here] at tried
      rw [calls, calls, if_pos empty, if_pos empty, if_pos after, if_neg before]
    · have unfinished := reached.fresh q empty (.inr (.inr ⟨i, .inr here⟩))
      rw [calls, calls, if_neg empty, if_neg empty, stored]
      obtain ⟨ended, -⟩ | ⟨ins, next, headers⟩ := Machine.run_header ran
      · have inside := (reached.loaded q).pc_le
        rw [List.getElem?_eq_none_iff] at ended
        rw [Finished] at unfinished
        rw [(reached.loaded q).text] at ended unfinished
        omega
      · have header := headers q
        rw [if_pos rfl] at header
        obtain ⟨_, _, _, pc⟩ := Header.mk.inj header
        exact pc
  · have spent : t.Spent p ↔ s.Spent p := Spent.congr cpus (congrFun freed p) (by simp [Tried, here, own])
    have pc : (t.mem.procs p).pc = (s.mem.procs p).pc := by
      rw [stored]
      obtain ⟨_, same⟩ | ⟨ins, next, headers⟩ := Machine.run_header ran
      · rw [same]
      · have header := headers p
        rw [if_neg fun same => own same.symm] at header
        exact (Header.mk.inj header).2.2.2
    rw [here, if_neg (by simpa using own), calls, calls, pc]
    simp only [spent, Nat.add_zero]

/-- No other step of a CPU counts as a call. -/
theorem CpuMove.calls (reached : Reachable cfg env s) (moved : CpuMove cfg env s i t) (p : Fin N) :
    calls cfg t p = calls cfg s p + if (s.cpus i).loc = .run p then 1 else 0 := by
  -- a program without instructions is finished
  have finished (empty : cfg.text p = []) : s.Finished p := by
    have loaded := reached.loaded p
    have inside := loaded.pc_le
    rw [Finished, loaded.text]
    rw [empty, List.length_nil] at inside ⊢
    omega
  have go {t : Os c N} {cpu : Cpu (Fin N)} (cpus : t.cpus = Function.update s.cpus i cpu)
      (away : (s.cpus i).loc ≠ .run p) (mem : t.mem = s.mem) (freed : t.freed p = s.freed p)
      (tried : cfg.text p = [] → (Tried p cpu ↔ Tried p (s.cpus i))) :
      Os.calls cfg t p = Os.calls cfg s p + if (s.cpus i).loc = .run p then 1 else 0 := by
    rw [if_neg away, Nat.add_zero]
    exact calls_congr mem fun empty => Spent.congr cpus freed (tried empty)
  have stays {t : Os c N} (away : (s.cpus i).loc ≠ .run p) (cpus : t.cpus = s.cpus) (mem : t.mem = s.mem)
      (freed : t.freed = s.freed) : Os.calls cfg t p = Os.calls cfg s p + if (s.cpus i).loc = .run p then 1 else 0 := by
    rw [if_neg away, Nat.add_zero]
    apply calls_congr mem
    rw [Spent, Spent, cpus, freed]
    exact fun _ => Iff.rfl
  cases moved with
  | take empty got =>
    obtain here | here := empty <;> exact go rfl (by simp [here]) rfl rfl (by simp [Tried, here])
  | idle here got => exact go rfl (by simp [here]) rfl rfl (by simp [Tried, here])
  | miss here got => exact go rfl (by simp [here]) rfl rfl (by simp [Tried, here])
  | @retire q here ended =>
    by_cases own : p = q
    · subst own
      have freed : Function.update s.freed p true p = true := Function.update_self ..
      rw [here, if_neg (by simp), Nat.add_zero]
      exact calls_congr rfl fun _ => ⟨fun _ => .inr ⟨i, .inr here⟩, fun _ => .inl freed⟩
    · have different : q ≠ p := fun same => own same.symm
      exact go rfl (by simp [here]) rfl (Function.update_of_ne own _ _) (by simp [Tried, here, different])
  | @put q here unfinished spent =>
    refine go rfl (by simp [here]) rfl rfl fun empty => ?_
    have different : q ≠ p := by
      rintro rfl
      exact unfinished (finished empty)
    simp [Tried, here, different]
  | @keep q here unfinished left =>
    refine go rfl (by simp [here]) rfl rfl fun empty => ?_
    have different : q ≠ p := by
      rintro rfl
      exact unfinished (finished empty)
    simp [Tried, here, different]
  | leave here done => exact go rfl (by simp [here]) rfl rfl (by simp [Tried, here])
  | skip here pending => exact go rfl (by simp [here]) rfl rfl (by simp [Tried, here])
  | dispatch here => exact go rfl (by simp [here]) rfl rfl (by simp [Tried, here])
  | run here ran => exact calls_run reached here ran (by rfl) (by rfl) (by rfl) p
  | start here outside => exact stays (by simp [here]) rfl rfl rfl
  | sleep here inside raised => exact stays (by simp [here]) rfl rfl rfl
  | wakeUp here inside released => exact go rfl (by simp [here]) rfl rfl (by simp [Tried, here])
  | detach here => exact go rfl (by simp [here]) rfl rfl (by simp [Tried, here])

/-- No step but a CPU's changes the calls. -/
theorem Move.calls (moved : Move cfg env s label t) (other : ∀ i, label ≠ .cpu i) (p : Fin N) :
    Os.calls cfg t p = Os.calls cfg s p := by
  have stays {t : Os c N} (cpus : t.cpus = s.cpus) (mem : t.mem = s.mem) (freed : t.freed = s.freed) :
      Os.calls cfg t p = Os.calls cfg s p := by
    apply calls_congr mem
    rw [Spent, Spent, cpus, freed]
    exact fun _ => Iff.rfl
  cases moved with
  | clock moved => exact stays rfl rfl rfl
  | @cpu i _ moved => exact absurd rfl (other i)
  | loader moved => cases moved <;> exact stays rfl rfl rfl
  | stop stopped finished => exact stays rfl rfl rfl

/-- Every call of `run` is the call of a process. -/
def Balanced (cfg : Config N) (s : Os c N) : Prop := s.runs = tally id (calls cfg s)

theorem Balanced.run (balanced : Balanced cfg s) (here : (s.cpus i).loc = .run q) {loc : CpuLoc (Fin N)} {left : Int}
    (cpus : t.cpus = Function.update s.cpus i ⟨loc, left, (s.cpus i).runTimes ++ [s.timer.time]⟩)
    (counted : ∀ p, calls cfg t p = calls cfg s p + if (s.cpus i).loc = .run p then 1 else 0) : Balanced cfg t := by
  have others (p : Fin N) (other : p ≠ q) : calls cfg t p = calls cfg s p := by
    rw [counted, here, if_neg (by simpa using other.symm), Nat.add_zero]
  have own : calls cfg t q = calls cfg s q + 1 := by rw [counted, if_pos here]
  have total : tally id (calls cfg t) + calls cfg s q = tally id (calls cfg s) + calls cfg t q :=
    tally_of_others id others
  have weights := tally_update (·.runTimes.length) s.cpus i ⟨loc, left, (s.cpus i).runTimes ++ [s.timer.time]⟩
  rw [← cpus, List.length_append, List.length_singleton] at weights
  rw [Balanced, runs] at balanced ⊢
  omega

private theorem CpuMove.balanced (reached : Reachable cfg env s) (balanced : Balanced cfg s)
    (moved : CpuMove cfg env s i t) : Balanced cfg t := by
  have counted := moved.calls reached
  have still (away : ∀ q, (s.cpus i).loc ≠ .run q) (runs : t.runs = s.runs) : Balanced cfg t := by
    have same : Os.calls cfg t = Os.calls cfg s := by
      funext p
      rw [counted, if_neg (away p), Nat.add_zero]
    rw [Balanced, runs, same]
    exact balanced
  have go {cpu : Cpu (Fin N)} (cpus : t.cpus = Function.update s.cpus i cpu)
      (times : cpu.runTimes = (s.cpus i).runTimes) : t.runs = s.runs := by
    have weights := tally_update (·.runTimes.length) s.cpus i cpu
    rw [← cpus, times] at weights
    rw [runs, runs]
    omega
  cases moved with
  | run here ran => exact balanced.run here rfl counted
  | take empty got => obtain here | here := empty <;> exact still (by simp [here]) (go rfl rfl)
  | start here outside => exact still (by simp [here]) rfl
  | sleep here inside raised => exact still (by simp [here]) rfl
  | idle here | miss here | retire here | put here | keep here | leave here | skip here | dispatch here | wakeUp here
  | detach here => exact still (by simp [here]) (go rfl rfl)

theorem Reachable.balanced (reached : Reachable cfg env s) : Balanced cfg s := by
  apply Reachable.keeps (Balanced cfg) reached
  · have none (p : Fin N) : calls cfg (Os.init cfg : Os c N) p = 0 := by
      rw [calls]
      split_ifs with empty spent
      · obtain freed | ⟨i, tried | tried⟩ := spent
        · cases freed
        · cases tried
        · cases tried
      · rfl
      · rfl
    have left : (Os.init cfg : Os c N).runs = 0 := tally_eq_zero_iff.mpr fun _ => rfl
    rw [Balanced, left]
    exact (tally_eq_zero_iff.mpr none).symm
  · intro now label after before balanced moved
    have others (other : ∀ i, label ≠ .cpu i) (cpus : after.cpus = now.cpus) : Balanced cfg after := by
      have same : calls cfg after = calls cfg now := funext fun p => moved.calls other p
      rw [Balanced, runs, cpus, same]
      exact balanced
    cases moved with
    | cpu moved => exact moved.balanced before balanced
    | clock moved quiet => exact others quiet rfl
    | loader moved => exact others (by simp) (by cases moved <;> rfl)
    | stop stopped finished => exact others (by simp) rfl

theorem Reachable.runs_le (reached : Reachable cfg env s) : s.runs ≤ cfg.work := by
  rw [reached.balanced, Config.work, tally]
  exact Finset.sum_le_sum fun p _ => calls_le (reached.loaded p)

/-- Past the time of the last addition and as many slots as there are calls, every process is freed. -/
private theorem all_freed_by (small : N ≤ maxQueueSize) (levels : ∀ p, cfg.level p < maxPrio) (someCpu : 0 < c)
    (reached : Reachable cfg env s) (late : cfg.freeTime N + cfg.work < s.timer.time) : s.AllFreed := by
  by_contra alive
  have covered : ∀ T ∈ Finset.Ico (cfg.freeTime N) s.timer.time, ∃ i, T ∈ (s.cpus i).runTimes := by
    intro T member
    obtain ⟨loaded, past⟩ := Finset.mem_Ico.mp member
    exact (reached.worked small levels someCpu T loaded past).resolve_right alive
  have slots := card_le_tally covered
  have calls := reached.runs_le
  rw [Nat.card_Ico] at slots
  change _ ≤ s.runs at slots
  omega

/-- No slot is wasted: after loading, some CPU runs a process in every slot until all are freed; the calls of `run`
are those that the programs need; and so all processes are freed after as many slots. -/
theorem makespan (small : N ≤ maxQueueSize) (levels : ∀ p, cfg.level p < maxPrio) (someCpu : 0 < c)
    (reached : Reachable cfg env s) :
    (∀ T, cfg.freeTime N ≤ T → T < s.timer.time → s.Ran T ∨ s.AllFreed) ∧
    s.runs = ∑ p, calls cfg s p ∧ (∀ p, calls cfg s p ≤ max 1 (cfg.text p).length) ∧
    (cfg.freeTime N + cfg.work < s.timer.time → s.AllFreed) :=
  ⟨reached.worked small levels someCpu, reached.balanced, fun p => calls_le (reached.loaded p),
    all_freed_by small levels someCpu reached⟩

/-- Four instructions, four calls. -/
theorem makespan_of_two :
    let cfg := Config.atOnce 16 (fun _ : Fin 2 => List.replicate 2 ⟨.calc, 0, 0, 0, 0⟩) 0
    let env : Env := ⟨.head, fun _ => 0⟩
    ∃ s : Os 2 2, exec cfg env (wholeRun 0 1) = some s ∧ s.timer.time = 4 ∧ (s.Ran 2 ∨ s.AllFreed) ∧
      s.runs = ∑ p, calls cfg s p := by
  intro cfg env
  have computed : (exec cfg env (wholeRun 0 1)).map (fun s : Os 2 2 => s.timer.time) = some 4 := by decide +kernel
  obtain ⟨s, reached, time⟩ := Option.map_eq_some_iff.mp computed
  obtain ⟨worked, balanced, -⟩ := makespan (by decide) (by decide) (by decide) (.of_exec reached)
  exact ⟨s, reached, time, worked 2 (by decide) (by omega), balanced⟩

/-- A freed process has executed its whole program. -/
theorem Reachable.freed_executed (reached : Reachable cfg env s) (freed : s.freed p = true) :
    s.executed p = cfg.text p := by
  have finished := ((reached.accounted p).freed freed).2
  have loaded := reached.loaded p
  rw [Finished, loaded.text] at finished
  rw [loaded.executed, finished, List.take_length]

end Os

end SimpleOS.Model
