import SimpleOS.Lib.Ranking
import SimpleOS.Lib.Tally
import SimpleOS.Soundness.WorkConservation

/-! # The threads make progress

Between two advances of the time every thread takes a bounded number of steps: the timer goes over its devices
twice, and each device calls `next_slot` once. No fairness is needed, since the timer waits for all devices and
they wait for the timer. Without spurious wakeups, a long run therefore has a late time.
-/

namespace SimpleOS.Model

open Lib

namespace Timer

/-- The steps of the timer until it advances the time, when no device signals it. -/
def Thread.rank (n : ℕ) : Thread → ℕ
  | .release i _ _ => n - i + 2 * n + 3
  | .top => 2 * n + 2
  | .wait i _ _ => 2 * (n - i) + 1
  | .asleep i _ _ => 2 * (n - i)
  | .exited => 0

/-- A signal may cost the timer another look. -/
private theorem Thread.rank_signal (thread : Thread) (n d : ℕ) : (thread.signal d).rank n ≤ thread.rank n + 1 := by
  cases thread with
  | asleep i fsh event =>
    rw [signal]
    split
    · exact le_refl _
    · exact Nat.le_succ _
  | _ => exact Nat.le_succ _

/-- The steps of a device until it sleeps for the rest of the slot, with those of its thread before it calls
`next_slot`. A device that has been released goes through the loop of its thread first. -/
def Device.rank (dev : Device) (outside : ℕ) : ℕ :=
  match dev.phase with
  | .working => outside
  | .entered => if dev.done then 1 else 8
  | .asleep => 0

end Timer

/-- The steps of `cpu_routine` until it calls `next_slot` and sleeps there. -/
def CpuLoc.rank {ι : Type} : CpuLoc ι → ℕ
  | .top _ => 7
  | .fetch => 6
  | .recheck _ => 5
  | .run _ => 4
  | .slot _ => 3
  | .leaving => 2
  | .stopped => 0

def LoaderLoc.rank : LoaderLoc → ℕ
  | .check => 7
  | .adding => 6
  | .slot => 3
  | .leaving => 2
  | .finished => 0

namespace Os

open Timer

variable {c N : ℕ} {cfg : Config N} {env : Env} {s t : Os c N} {i : Fin c} {label : Label c} {labels : List (Label c)}

/-- The rank of a device that the timer is going to release includes the round after it. -/
def devRank (timer : Timer.State (c + 1)) (d : Fin (c + 1)) (outside : ℕ) : ℕ :=
  (timer.devs d).rank outside + if timer.thread.due d then 8 else 0

def cpuRank (s : Os c N) (i : Fin c) : ℕ := devRank s.timer (cpuDev i) (s.cpus i).loc.rank

def loaderRank (s : Os c N) : ℕ := devRank s.timer loaderDev s.loader.loc.rank

/-- The steps until the time advances. -/
def rank (s : Os c N) : ℕ := s.timer.thread.rank (c + 1) + s.loaderRank + tally id s.cpuRank

/-- The steps left for the thread of a device and for the timer. -/
def stepsLeft (timer : Timer.State (c + 1)) (d : Fin (c + 1)) (outside : ℕ) : ℕ :=
  timer.thread.rank (c + 1) + (timer.devs d).rank outside

/-- A step of CPU `i`, which may change its device and signal the timer. -/
private theorem rank_of_cpu (loader : t.loader = s.loader) (others : ∀ j, j ≠ i → t.cpus j = s.cpus j)
    (devices : ∀ e, e ≠ cpuDev i → t.timer.devs e = s.timer.devs e)
    (due : ∀ d, t.timer.thread.due d = s.timer.thread.due d)
    (less : stepsLeft t.timer (cpuDev i) (t.cpus i).loc.rank < stepsLeft s.timer (cpuDev i) (s.cpus i).loc.rank) :
    t.rank < s.rank := by
  have same (j : Fin c) (other : j ≠ i) : t.cpuRank j = s.cpuRank j := by
    rw [cpuRank, cpuRank, devRank, devRank, due, others j other, devices _ fun same => other (cpuDev_injective same)]
  have balance : tally id t.cpuRank + s.cpuRank i = tally id s.cpuRank + t.cpuRank i := tally_of_others id same
  have still : t.loaderRank = s.loaderRank := by
    rw [loaderRank, loaderRank, devRank, devRank, due, loader, devices _ fun same => cpuDev_ne_loaderDev i same.symm]
  rw [rank, rank, still]
  simp only [stepsLeft, cpuRank, devRank, due] at less balance
  omega

private theorem rank_of_loader (cpus : t.cpus = s.cpus)
    (devices : ∀ e, e ≠ loaderDev → t.timer.devs e = s.timer.devs e)
    (due : ∀ d, t.timer.thread.due d = s.timer.thread.due d)
    (less : stepsLeft t.timer loaderDev t.loader.loc.rank < stepsLeft s.timer loaderDev s.loader.loc.rank) :
    t.rank < s.rank := by
  have still : t.cpuRank = s.cpuRank := by
    funext i
    rw [cpuRank, cpuRank, devRank, devRank, due, cpus, devices _ (cpuDev_ne_loaderDev i)]
  rw [rank, rank, still]
  simp only [stepsLeft, loaderRank, devRank, due] at less ⊢
  omega

section Devices

variable {timer : Timer.State (c + 1)} {d : Fin (c + 1)}

private theorem stepsLeft_go {before after : ℕ} (outside : (timer.devs d).phase = .working) (less : after < before) :
    stepsLeft timer d after < stepsLeft timer d before := by
  simp only [stepsLeft, Device.rank, outside]
  omega

private theorem stepsLeft_start (outside : (timer.devs d).phase = .working) {after : ℕ} :
    stepsLeft (timer.start d) d after < stepsLeft timer d 3 := by
  have signal := (timer.thread).rank_signal (c + 1) d
  have here : (timer.start d).devs d =
      { timer.devs d with done := true, phase := .entered, startTimes := (timer.devs d).startTimes ++ [timer.time] } :=
    Function.update_self ..
  rw [stepsLeft, here, stepsLeft]
  simp only [Device.rank, outside, if_true]
  change (timer.thread.signal d).rank (c + 1) + 1 < _
  omega

private theorem stepsLeft_sleep (inside : (timer.devs d).phase = .entered) (raised : (timer.devs d).done = true)
    {outside : ℕ} : stepsLeft (timer.look d) d outside < stepsLeft timer d outside := by
  have here : (timer.look d).devs d = { timer.devs d with phase := .asleep } := by
    simp [Timer.State.look, Timer.State.setDev, raised]
  rw [stepsLeft, here, stepsLeft]
  simp only [Device.rank, inside, raised, if_true]
  exact Nat.lt_succ_self _

private theorem stepsLeft_wakeUp (inside : (timer.devs d).phase = .entered) (released : (timer.devs d).done = false)
    {outside : ℕ} : stepsLeft (timer.look d) d 7 < stepsLeft timer d outside := by
  have here : (timer.look d).devs d = { timer.devs d with phase := .working } := by
    simp [Timer.State.look, Timer.State.setDev, released]
  rw [stepsLeft, here, stepsLeft]
  simp only [Device.rank, inside, released]
  exact Nat.lt_succ_self _

private theorem stepsLeft_detach (outside : (timer.devs d).phase = .working) :
    stepsLeft (timer.detach d) d 0 < stepsLeft timer d 2 := by
  have signal := (timer.thread).rank_signal (c + 1) d
  have here : (timer.detach d).devs d = { timer.devs d with fsh := true } := Function.update_self ..
  rw [stepsLeft, here, stepsLeft]
  simp only [Device.rank, outside]
  change (timer.thread.signal d).rank (c + 1) + 0 < _
  omega

end Devices

/-- Every step of a CPU lowers the rank. -/
private theorem CpuMove.rank (linked : Linked s.timer s.cpus s.loader) (moved : CpuMove cfg env s i t) :
    t.rank < s.rank := by
  have others (j : Fin c) (other : j ≠ i) : t.cpus j = s.cpus j := (moved.others other).1
  have outside (here : ∀ proc, (s.cpus i).loc ≠ .slot proc) : (s.timer.devs (cpuDev i)).phase = .working :=
    (linked.cpu i).outside fun ⟨proc, slot⟩ => here proc slot
  -- the steps that leave the timer alone
  have go (timer : t.timer = s.timer) (loader : t.loader = s.loader) (here : ∀ proc, (s.cpus i).loc ≠ .slot proc)
      (less : (t.cpus i).loc.rank < (s.cpus i).loc.rank) : t.rank < s.rank := by
    apply rank_of_cpu loader others
    · rw [timer]
      exact fun _ _ => rfl
    · rw [timer]
      exact fun _ => rfl
    · rw [timer]
      exact stepsLeft_go (outside here) less
  have device (loader : t.loader = s.loader) (devices : ∀ e, e ≠ cpuDev i → t.timer.devs e = s.timer.devs e)
      (due : ∀ d, t.timer.thread.due d = s.timer.thread.due d)
      (less : stepsLeft t.timer (cpuDev i) (t.cpus i).loc.rank < stepsLeft s.timer (cpuDev i) (s.cpus i).loc.rank) :
      t.rank < s.rank := rank_of_cpu loader others devices due less
  cases moved with
  | take empty got =>
    refine go rfl rfl ?_ ?_
    · rcases empty with here | here <;> simp [here]
    · rcases empty with here | here <;> simp [here, CpuLoc.rank]
  | idle here got => exact go rfl rfl (by simp [here]) (by simp [here, CpuLoc.rank])
  | miss here got => exact go rfl rfl (by simp [here]) (by simp [here, CpuLoc.rank])
  | retire here finished => exact go rfl rfl (by simp [here]) (by simp [here, CpuLoc.rank])
  | put here unfinished spent => exact go rfl rfl (by simp [here]) (by simp [here, CpuLoc.rank])
  | keep here unfinished left => exact go rfl rfl (by simp [here]) (by simp [here, CpuLoc.rank])
  | leave here done => exact go rfl rfl (by simp [here]) (by simp [here, CpuLoc.rank])
  | skip here pending => exact go rfl rfl (by simp [here]) (by simp [here, CpuLoc.rank])
  | dispatch here => exact go rfl rfl (by simp [here]) (by simp [here, CpuLoc.rank])
  | run here ran => exact go rfl rfl (by simp [here]) (by simp [here, CpuLoc.rank])
  | start here asked =>
    apply device rfl (setDev_others _ _ _) (fun d => Thread.due_signal _ _ _)
    rw [here]
    exact stepsLeft_start asked
  | sleep here inside raised =>
    apply device rfl (setDev_others _ _ _) (fun d => rfl)
    exact stepsLeft_sleep inside raised
  | wakeUp here inside released =>
    apply device rfl (setDev_others _ _ _) (fun d => rfl)
    simp only [setCpu_cpus_self]
    exact stepsLeft_wakeUp inside released
  | detach here =>
    apply device rfl (setDev_others _ _ _) (fun d => Thread.due_signal _ _ _)
    simp only [setCpu_cpus_self, here]
    exact stepsLeft_detach (outside (by simp [here]))

/-- Every step of the loader lowers the rank. -/
private theorem LoaderMove.rank (linked : Linked s.timer s.cpus s.loader) (moved : LoaderMove cfg s t) :
    t.rank < s.rank := by
  have outside (here : s.loader.loc ≠ .slot) : (s.timer.devs loaderDev).phase = .working := linked.loader.outside here
  have go (timer : t.timer = s.timer) (cpus : t.cpus = s.cpus) (here : s.loader.loc ≠ .slot)
      (less : t.loader.loc.rank < s.loader.loc.rank) : t.rank < s.rank := by
    apply rank_of_loader cpus
    · rw [timer]
      exact fun _ _ => rfl
    · rw [timer]
      exact fun _ => rfl
    · rw [timer]
      exact stepsLeft_go (outside here) less
  have device (cpus : t.cpus = s.cpus) (devices : ∀ e, e ≠ loaderDev → t.timer.devs e = s.timer.devs e)
      (due : ∀ d, t.timer.thread.due d = s.timer.thread.due d)
      (less : stepsLeft t.timer loaderDev t.loader.loc.rank < stepsLeft s.timer loaderDev s.loader.loc.rank) :
      t.rank < s.rank := rank_of_loader cpus devices due less
  cases moved with
  | hold here next early => exact go rfl rfl (by simp [here]) (by simp [here, LoaderLoc.rank])
  | ready here next due => exact go rfl rfl (by simp [here]) (by simp [here, LoaderLoc.rank])
  | finish here all => exact go rfl rfl (by simp [here]) (by simp [here, LoaderLoc.rank])
  | add here next => exact go rfl rfl (by simp [here]) (by simp [here, LoaderLoc.rank])
  | start here asked =>
    apply device rfl (setDev_others _ _ _) (fun d => Thread.due_signal _ _ _)
    rw [here]
    exact stepsLeft_start asked
  | sleep here inside raised =>
    apply device rfl (setDev_others _ _ _) (fun d => rfl)
    exact stepsLeft_sleep inside raised
  | wakeUp here inside released =>
    apply device rfl (setDev_others _ _ _) (fun d => rfl)
    exact stepsLeft_wakeUp inside released
  | detach here =>
    apply device rfl (setDev_others _ _ _) (fun d => Thread.due_signal _ _ _)
    rw [here]
    exact stepsLeft_detach (outside (by simp [here]))

/-- The timer sleeps for one of its devices. -/
def Awaits (s : Os c N) : Prop := ∀ i fsh event, s.timer.thread = .asleep i fsh event → i < c + 1

private theorem Awaits.signal (awaits : Awaits s) {d : ℕ} (thread : t.timer.thread = s.timer.thread.signal d) :
    Awaits t := by
  intro i fsh event slept
  rw [thread] at slept
  exact awaits i fsh event (Thread.signal_eq_asleep slept).1

private theorem Awaits.clock {timer : Timer.State (c + 1)} (awaits : Awaits s) (moved : Clock s.timer timer) :
    Awaits { s with timer } := by
  intro i fsh event slept
  cases moved with
  | advance taken =>
    simp only [Timer.State.advance] at taken
    split at taken
    · cases taken
      dsimp only at slept
      split at slept <;> cases slept
    · split at taken
      · rename_i bound
        split at taken <;> cases taken
        · cases slept
          exact bound
        · cases slept
      · cases taken
        cases slept
    · cases taken
    · split at taken <;> cases taken
      · cases slept
      · dsimp only at slept
        split at slept <;> cases slept
    · cases taken
  | wakeTimer taken =>
    simp only [Timer.State.wakeTimer] at taken
    split at taken <;> cases taken
    cases slept
  | wake taken =>
    simp only [Timer.State.wake] at taken
    split_ifs at taken
    cases taken
    exact awaits i fsh event slept

private theorem Reachable.awaits (reached : Reachable cfg env s) : Awaits s := by
  refine Reachable.keeps Awaits reached ?_ ?_
  · intro i fsh event slept
    cases slept
  · intro now label after _ awaits moved
    cases moved with
    | clock moved => exact awaits.clock moved
    | cpu moved =>
      cases moved with
      | start here outside => exact awaits.signal rfl
      | detach here => exact awaits.signal rfl
      | _ => exact awaits
    | loader moved =>
      cases moved with
      | start here outside => exact awaits.signal rfl
      | detach here => exact awaits.signal rfl
      | _ => exact awaits
    | stop stopped finished => exact awaits

end Os

end SimpleOS.Model
