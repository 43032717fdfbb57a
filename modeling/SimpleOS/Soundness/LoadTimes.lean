import SimpleOS.Proofs.Places
import SimpleOS.Soundness.Barrier

/-! # When processes are loaded

The loader waits for the start time of a process, adds it and calls `next_slot` once more before it looks at
the next one. By the barrier its number of calls is the time it sees, so the times of all additions follow
from the start times alone.
-/

namespace SimpleOS.Model

/-- `start_time[i]`. -/
def Config.startAt {N : ℕ} (cfg : Config N) (i : ℕ) : ℕ :=
  if bound : i < N then cfg.startTime ⟨i, bound⟩ else 0

/-- The time at which process `i` is added. -/
def Config.loadTime {N : ℕ} (cfg : Config N) : ℕ → ℕ
  | 0 => cfg.startAt 0
  | i + 1 => max (cfg.startAt (i + 1)) (cfg.loadTime i + 1)

/-- The time from which the loader looks at process `i`: one slot after it has added the one before. -/
def Config.freeTime {N : ℕ} (cfg : Config N) : ℕ → ℕ
  | 0 => 0
  | i + 1 => cfg.loadTime i + 1

namespace Config

variable {N : ℕ} {cfg : Config N} {i j : ℕ}

private theorem startAt_fin (cfg : Config N) (p : Fin N) : cfg.startAt p = cfg.startTime p := dif_pos p.isLt

theorem loadTime_eq (cfg : Config N) (i : ℕ) : cfg.loadTime i = max (cfg.startAt i) (cfg.freeTime i) := by
  cases i with
  | zero => exact (Nat.max_eq_left (Nat.zero_le _)).symm
  | succ i => rfl

/-- At most one process is added in a slot, in the order of the configuration. -/
private theorem loadTime_lt (later : i < j) : cfg.loadTime i < cfg.loadTime j := by
  induction j with
  | zero => cases later
  | succ j ih =>
    have next : cfg.loadTime j < cfg.loadTime (j + 1) := Nat.lt_of_succ_le (Nat.le_max_right _ _)
    obtain before | rfl := Nat.lt_succ_iff_lt_or_eq.mp later
    · exact (ih before).trans next
    · exact next

theorem loadTime_mono (cfg : Config N) (later : i ≤ j) : cfg.loadTime i ≤ cfg.loadTime j := by
  obtain before | rfl := Nat.lt_or_eq_of_le later
  · exact Nat.le_of_lt (loadTime_lt before)
  · exact le_refl _

end Config

namespace Os

open Lib Timer

variable {c N : ℕ} {cfg : Config N} {env : Env} {s t : Os c N} {label : Label c}

/-- The number of calls of `next_slot` the loader has made when it looks at a start time next. -/
def nextLook (s : Os c N) : ℕ :=
  (s.timer.devs loaderDev).startTimes.length +
    if s.loader.loc = .slot ∧ (s.timer.devs loaderDev).phase = .working then 1 else 0

/-- How far the loader is. -/
structure OnSchedule (cfg : Config N) (s : Os c N) : Prop where
  bound : s.loader.i ≤ N
  free : cfg.freeTime s.loader.i ≤ s.nextLook
  due : s.loader.i < N → s.nextLook ≤ cfg.loadTime s.loader.i
  last : s.loader.i = N → s.nextLook = cfg.freeTime N
  adding : s.loader.loc = .adding → s.loader.i < N ∧ cfg.startAt s.loader.i ≤ s.nextLook
  ended : s.loader.loc = .leaving ∨ s.loader.loc = .finished → s.loader.i = N
  gone : s.loader.loc = .finished → cfg.freeTime N ≤ s.timer.time

theorem OnSchedule.init (cfg : Config N) : OnSchedule cfg (Os.init cfg : Os c N) where
  bound := Nat.zero_le N
  free := Nat.zero_le _
  due _ := Nat.zero_le _
  last none := by
    have vacant : N = 0 := none.symm
    subst vacant
    rfl
  adding := nofun
  ended := nofun
  gone := nofun

/-- The number of calls is the time the loader sees outside `next_slot`. -/
theorem Linked.loader_time (linked : Linked s.timer s.cpus s.loader) (outside : s.loader.loc ≠ .slot)
    (here : s.loader.loc ≠ .finished) : s.nextLook = s.timer.time := by
  have working := linked.loader.outside outside
  have attached := linked.loader.attached here
  have onTime := OnTime.of_inv linked.inv loaderDev
  rw [nextLook, if_neg (by simp [outside]), Nat.add_zero]
  exact onTime.lowered attached (onTime.working attached working)

/-- The others move. -/
private theorem OnSchedule.others (onSchedule : OnSchedule cfg s) (loader : t.loader = s.loader)
    (device : (s.timer.devs loaderDev).Same (t.timer.devs loaderDev)) (time : s.timer.time ≤ t.timer.time) :
    OnSchedule cfg t := by
  have look : t.nextLook = s.nextLook := by
    simp only [nextLook, loader, device.startTimes, device.working]
  constructor <;> rw [loader]
  · exact onSchedule.bound
  · exact look ▸ onSchedule.free
  · exact look ▸ onSchedule.due
  · exact look ▸ onSchedule.last
  · exact look ▸ onSchedule.adding
  · exact onSchedule.ended
  · exact fun here => (onSchedule.gone here).trans time

private theorem LoaderMove.onSchedule (linked : Linked s.timer s.cpus s.loader) (onSchedule : OnSchedule cfg s)
    (moved : LoaderMove cfg s t) : OnSchedule cfg t := by
  have free := onSchedule.free
  have due := onSchedule.due
  have last := onSchedule.last
  have split := cfg.loadTime_eq s.loader.i
  cases moved with
  | @hold p here next early =>
    have time := linked.loader_time (by simp [here]) (by simp [here])
    have working := linked.loader.outside (by simp [here])
    have bound : s.loader.i < N := next ▸ p.isLt
    have start : cfg.startAt s.loader.i = cfg.startTime p := by rw [← next, Config.startAt_fin]
    have look : (s.timer.devs loaderDev).startTimes.length = s.timer.time := by
      simpa [nextLook, here] using time
    refine ⟨onSchedule.bound, ?_, ?_, fun all => absurd all (Nat.ne_of_lt bound), by simp, by simp, by simp⟩
    · simp only [nextLook, working, and_self, if_true]
      omega
    · intro _
      simp only [nextLook, working, and_self, if_true]
      omega
  | @ready p here next due' =>
    have time := linked.loader_time (by simp [here]) (by simp [here])
    have bound : s.loader.i < N := next ▸ p.isLt
    have start : cfg.startAt s.loader.i = cfg.startTime p := by rw [← next, Config.startAt_fin]
    have same : nextLook { s with loader := { s.loader with loc := .adding } } = s.nextLook := by
      simp [nextLook, here]
    refine ⟨onSchedule.bound, same ▸ free, same ▸ due, same ▸ last, fun _ => ⟨bound, ?_⟩, by simp, by simp⟩
    rw [same]
    change cfg.startAt s.loader.i ≤ _
    omega
  | finish here all =>
    have same : nextLook { s with done := true, loader := { s.loader with loc := .leaving } } = s.nextLook := by
      simp [nextLook, here]
    exact ⟨onSchedule.bound, same ▸ free, same ▸ due, same ▸ last, by simp,
      fun _ => Nat.le_antisymm onSchedule.bound all, by simp⟩
  | @add p here next =>
    obtain ⟨bound, start⟩ := onSchedule.adding here
    have working := linked.loader.outside (by simp [here])
    have exactly : s.nextLook = cfg.loadTime s.loader.i := by
      have before := due bound
      omega
    have length : (s.timer.devs loaderDev).startTimes.length = cfg.loadTime s.loader.i := by
      simpa [nextLook, here] using exactly
    have look : nextLook { s with
        sched := s.sched.addProc (s.mem.procs p).prio p
        loader := ⟨.slot, s.loader.i + 1⟩ } = cfg.freeTime (s.loader.i + 1) := by
      simp [nextLook, working, length, Config.freeTime]
    refine ⟨bound, look.ge, fun _ => ?_, fun all => ?_, by simp, by simp, by simp⟩
    · rw [look, Config.loadTime_eq]
      exact Nat.le_max_right _ _
    · rw [look]
      exact congrArg cfg.freeTime all
  | start here outside =>
    have same : nextLook { s with timer := s.timer.start loaderDev } = s.nextLook := by
      simp [nextLook, here, outside, Timer.State.start, Timer.State.setDev]
    exact ⟨onSchedule.bound, same ▸ free, same ▸ due, same ▸ last, by simp [here], by simp [here], by simp [here]⟩
  | sleep here inside raised =>
    have same : nextLook { s with timer := s.timer.look loaderDev } = s.nextLook := by
      simp [nextLook, here, inside, raised, Timer.State.look, Timer.State.setDev]
    exact ⟨onSchedule.bound, same ▸ free, same ▸ due, same ▸ last, by simp [here], by simp [here], by simp [here]⟩
  | wakeUp here inside released =>
    have same : nextLook { s with
        timer := s.timer.look loaderDev
        loader := { s.loader with loc := .check } } = s.nextLook := by
      simp [nextLook, here, inside, Timer.State.look, Timer.State.setDev]
    exact ⟨onSchedule.bound, same ▸ free, same ▸ due, same ▸ last, by simp, by simp, by simp⟩
  | detach here =>
    have all := onSchedule.ended (.inl here)
    have time := linked.loader_time (by simp [here]) (by simp [here])
    have same : nextLook { s with
        timer := s.timer.detach loaderDev
        loader := { s.loader with loc := .finished } } = s.nextLook := by
      simp [nextLook, here, Timer.State.detach, Timer.State.setDev]
    refine ⟨onSchedule.bound, same ▸ free, same ▸ due, same ▸ last, by simp, fun _ => all, fun _ => ?_⟩
    exact ((last all).symm.trans time).le

private theorem CpuMove.loaderDev_same {i : Fin c} (moved : CpuMove cfg env s i t) :
    t.timer.devs loaderDev = s.timer.devs loaderDev := by
  have apart := (cpuDev_ne_loaderDev i).symm
  cases moved with
  | start here outside | sleep here inside raised | wakeUp here inside released | detach here =>
    exact setDev_others s.timer _ _ _ apart
  | _ => rfl

theorem time_le (reached : Reachable cfg env s) (taken : Step cfg env s label t) :
    s.timer.time ≤ t.timer.time := by
  by_cases same : t.timer.time = s.timer.time
  · exact same.ge
  · have next := (time_step reached taken same).1
    omega

theorem OnSchedule.step (reached : Reachable cfg env s) (onSchedule : OnSchedule cfg s)
    (taken : Step cfg env s label t) : OnSchedule cfg t := by
  have time := time_le reached taken
  cases Step.move taken with
  | clock moved => exact onSchedule.others rfl (moved.same _) time
  | cpu moved => exact onSchedule.others moved.loader.1 (moved.loaderDev_same ▸ .refl _) time
  | loader moved => exact moved.onSchedule reached.linked onSchedule
  | stop stopped finished => exact onSchedule.others rfl (.refl _) time

/-- The process for which the next step of a thread calls `add_proc`, and when. -/
def added (s : Os c N) : Label c → List (Fin N × ℕ)
  | .loader =>
    if bound : s.loader.loc = .adding ∧ s.loader.i < N then [(⟨s.loader.i, bound.2⟩, s.timer.time)] else []
  | _ => []

/-- The scheduler after a call of `add_proc` for each process of a record. -/
def addAll (s : Os c N) (record : List (Fin N × ℕ)) : Sched (Fin N) :=
  record.foldl (fun sched entry => sched.addProc (s.mem.procs entry.1).prio entry.1) s.sched

/-- The loader changes the scheduler by the recorded calls alone. -/
private theorem loaderStep_sched (taken : Step cfg env s .loader t) : t.sched = s.addAll (s.added .loader) := by
  cases loaderStep_move taken with
  | @add p here next =>
    have bound : s.loader.i < N := next ▸ p.isLt
    obtain rfl : p = ⟨s.loader.i, bound⟩ := Fin.ext next
    rw [added, dif_pos ⟨here, bound⟩]
    rfl
  | hold here | ready here | finish here | start here | sleep here | wakeUp here | detach here =>
    rw [added, dif_neg (by simp [here])]
    rfl

/-- A step, with a record of all processes added so far. -/
def Recorded (cfg : Config N) (env : Env) (s : Os c N × List (Fin N × ℕ)) (label : Label c)
    (t : Os c N × List (Fin N × ℕ)) : Prop :=
  Step cfg env s.1 label t.1 ∧ t.2 = s.2 ++ s.1.added label

/-- The first `n` processes, with their load times. -/
def schedule (cfg : Config N) (n : ℕ) : List (Fin N × ℕ) :=
  ((List.finRange N).take n).map fun p => (p, cfg.loadTime p)

private theorem schedule_succ {n : ℕ} (bound : n < N) :
    schedule cfg (n + 1) = schedule cfg n ++ [(⟨n, bound⟩, cfg.loadTime n)] := by
  have next : (List.finRange N)[n]? = some ⟨n, bound⟩ := by simp [bound]
  rw [schedule, List.take_add_one, next, List.map_append, schedule]
  rfl

/-- A step adds the next process at its load time, or none. -/
private theorem schedule_step (reached : Reachable cfg env s) (onSchedule : OnSchedule cfg s)
    (taken : Step cfg env s label t) :
    schedule cfg t.loader.i = schedule cfg s.loader.i ++ s.added label := by
  have stays : t.loader.i = s.loader.i → s.added label = [] →
      schedule cfg t.loader.i = schedule cfg s.loader.i ++ s.added label := by
    intro same none
    rw [same, none, List.append_nil]
  cases label with
  | loader =>
    cases loaderStep_move taken with
    | @add p here next =>
      obtain ⟨bound, start⟩ := onSchedule.adding here
      have time := reached.linked.loader_time (by simp [here]) (by simp [here])
      have due := onSchedule.due bound
      have free := onSchedule.free
      have split := cfg.loadTime_eq s.loader.i
      have exactly : s.timer.time = cfg.loadTime s.loader.i := by omega
      rw [schedule_succ bound, added, dif_pos ⟨here, bound⟩, exactly]
    | hold here | ready here | finish here | start here | sleep here | wakeUp here | detach here =>
      exact stays rfl (by simp [added, here])
  | cpu i => exact stays (congrArg Loader.i (cpuStep_move taken).loader.1) rfl
  | timer | timerWake | cpuWake i | loaderWake | stop => cases Step.move taken <;> exact stays rfl rfl

theorem Recorded.run {record : List (Fin N × ℕ)} {labels : List (Label c)}
    (run : Run (Recorded cfg env) (Os.init cfg, []) labels (s, record)) :
    Reachable cfg env s ∧ OnSchedule cfg s ∧ record = schedule cfg s.loader.i := by
  generalize state : (s, record) = last at run
  induction run generalizing s record with
  | start =>
    cases state
    exact ⟨.init cfg env, .init cfg, rfl⟩
  | @next _ now _ label earlier taken ih =>
    obtain ⟨before, past⟩ := now
    obtain ⟨reached, onSchedule, recorded⟩ := ih rfl
    obtain ⟨moved, appended⟩ := taken
    obtain ⟨rfl, rfl⟩ := Prod.mk.inj state
    refine ⟨reached.next moved, onSchedule.step reached moved, ?_⟩
    rw [schedule_step reached onSchedule moved, ← recorded]
    exact appended

/-- The loader is not ahead of the clock, and not behind it by more than the slot it is in. -/
theorem Linked.time_le (linked : Linked s.timer s.cpus s.loader) (here : s.loader.loc ≠ .finished) :
    s.timer.time ≤ s.nextLook := by
  have attached := linked.loader.attached here
  have onTime := OnTime.of_inv linked.inv loaderDev
  rw [nextLook]
  by_cases working : (s.timer.devs loaderDev).phase = .working
  · have length := onTime.lowered attached (onTime.working attached working)
    omega
  · have length := onTime.waiting working
    omega

/-- Where the clock stands when `done` is set, and when it has not been set. -/
theorem OnSchedule.done_cases (reached : Reachable cfg env s) (onSchedule : OnSchedule cfg s) :
    (s.done = true ∧ s.loader.i = N ∧ cfg.freeTime N ≤ s.timer.time) ∨
      (s.done = false ∧ s.loader.loc ≠ .finished) := by
  have flags := reached.flags
  cases done : s.done with
  | false =>
    refine .inr ⟨rfl, fun here => ?_⟩
    have set := flags.loader.mpr (.inr here)
    rw [done] at set
    cases set
  | true =>
    have ended := flags.loader.mp done
    have all := onSchedule.ended ended
    refine .inl ⟨rfl, all, ?_⟩
    obtain leaving | finished := ended
    · have time := reached.linked.loader_time (by simp [leaving]) (by simp [leaving])
      exact ((onSchedule.last all).symm.trans time).le
    · exact onSchedule.gone finished

/-- In every run the processes are added in the order of the configuration, each at its load time, which is
not before its start time and later than the one before; the loader does nothing else to the scheduler; no
process is missing once the clock has passed its load time; and `done` is set in the slot after the last addition. -/
theorem load_times {record : List (Fin N × ℕ)} {labels : List (Label c)}
    (run : Run (Recorded cfg env) (Os.init cfg, []) labels (s, record)) :
    record = schedule cfg s.loader.i ∧
    (∀ t, Step cfg env s .loader t → t.sched = s.addAll (s.added .loader)) ∧
    (∀ p : Fin N, cfg.startTime p ≤ cfg.loadTime p) ∧
    (∀ p q : Fin N, p < q → cfg.loadTime p < cfg.loadTime q) ∧
    (∀ p : Fin N, cfg.loadTime p < s.timer.time → p < s.loader.i) ∧
    (s.done = true → s.loader.i = N ∧ ∀ p : Fin N, cfg.loadTime p < s.timer.time) ∧
    (0 < s.timer.time → (∀ p : Fin N, cfg.loadTime p + 1 < s.timer.time) → s.done = true) := by
  obtain ⟨reached, onSchedule, recorded⟩ := Recorded.run run
  have cases := onSchedule.done_cases reached
  refine ⟨recorded, fun t => loaderStep_sched, ?_, fun p q later => Config.loadTime_lt later, ?_, ?_, ?_⟩
  · intro p
    rw [Config.loadTime_eq, Config.startAt_fin]
    exact Nat.le_max_left _ _
  · intro p passed
    obtain ⟨-, all, -⟩ | ⟨-, here⟩ := cases
    · rw [all]
      exact p.isLt
    · apply Nat.lt_of_not_le
      intro missing
      have time := reached.linked.time_le here
      have due := onSchedule.due (Nat.lt_of_le_of_lt missing p.isLt)
      have mono := cfg.loadTime_mono missing
      omega
  · intro done
    obtain ⟨-, all, time⟩ | ⟨pending, -⟩ := cases
    · refine ⟨all, fun p => ?_⟩
      obtain ⟨n, rfl⟩ := Nat.exists_eq_succ_of_ne_zero (Nat.ne_of_gt (Nat.zero_lt_of_lt p.isLt))
      have mono := cfg.loadTime_mono (Nat.le_of_lt_succ p.isLt)
      rw [Config.freeTime] at time
      omega
    · rw [pending] at done
      cases done
  · intro started passed
    obtain ⟨done, -⟩ | ⟨-, here⟩ := cases
    · exact done
    · exfalso
      have time := reached.linked.time_le here
      obtain before | all := Nat.lt_or_eq_of_le onSchedule.bound
      · have due := onSchedule.due before
        have late := passed ⟨s.loader.i, before⟩
        simp only at late
        omega
      · have last := onSchedule.last all
        cases N with
        | zero =>
          rw [Config.freeTime] at last
          omega
        | succ n =>
          have late := passed (Fin.last n)
          rw [Config.freeTime] at last
          rw [Fin.val_last] at late
          omega

/-- Two processes may start at time 0. The second one is added one slot later. -/
theorem load_times_of_two :
    let cfg : Config 2 := .atOnce 16 (fun _ => []) 0
    let env : Env := ⟨.head, fun _ => 0⟩
    ∃ (labels : List (Label 0)) (s : Os 0 2) (record : List (Fin 2 × ℕ)),
      Run (Recorded cfg env) (Os.init cfg, []) labels (s, record) ∧ record = [(0, 0), (1, 1)] ∧
      record = schedule cfg s.loader.i := by
  intro cfg env
  let labels : List (Label 0) := [.loader, .loader, .loader, .timer, .timer, .timer, .timer, .loader, .loader, .loader]
  let next (s : Os 0 2 × List (Fin 2 × ℕ)) (label : Label 0) :=
    (s.1.step cfg env label).map fun t => (t, s.2 ++ s.1.added label)
  have computed : (labels.foldlM next (Os.init cfg, [])).map Prod.snd = some [(0, 0), (1, 1)] := by
    decide +kernel
  obtain ⟨⟨s, record⟩, reached, value⟩ := Option.map_eq_some_iff.mp computed
  have run : Run (Recorded cfg env) (Os.init cfg, []) labels (s, record) := by
    apply (Run.of_foldlM reached).mono
    intro now label after taken
    obtain ⟨t, moved, rfl⟩ := Option.map_eq_some_iff.mp taken
    exact ⟨moved, rfl⟩
  exact ⟨labels, s, record, run, value, (load_times run).1⟩

end Os

end SimpleOS.Model
