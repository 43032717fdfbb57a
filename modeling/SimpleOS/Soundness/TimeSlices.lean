import SimpleOS.Lib.Rely
import SimpleOS.Proofs.Places
import SimpleOS.Soundness.Barrier

/-! # Time slices

One CPU among arbitrary others: between its steps the ready queues, the flag `done` and everything else may
change in any way, as long as nobody touches its own variables, the process it holds or its calls of
`next_slot`, and the time it sees while it works is its own count of slots. A slice of a process goes from
its dispatch to the step that frees it or puts it back.
-/

namespace SimpleOS.Model.Os

open Lib Timer

variable {c N : ℕ} {cfg : Config N} {env : Env} {a s t : Os c N} {i : Fin c} {p : Fin N}

/-- The time a device sees outside `next_slot` is its number of calls. -/
structure Punctual (timer : Timer.State (c + 1)) (d : Fin (c + 1)) : Prop where
  working : (timer.devs d).fsh = false → (timer.devs d).phase = .working → (timer.devs d).done = false
  lowered : (timer.devs d).fsh = false → (timer.devs d).done = false →
    (timer.devs d).startTimes.length = timer.time

private theorem OnTime.punctual {timer : Timer.State (c + 1)} {d : Fin (c + 1)} (onTime : OnTime timer d) :
    Punctual timer d := ⟨onTime.working, onTime.lowered⟩

/-- What the others may do while CPU `i` is where it is. -/
structure Elsewhere (i : Fin c) (s t : Os c N) : Prop where
  cpu : t.cpus i = s.cpus i
  held : ∀ p, (s.cpus i).loc.proc = some p → (t.mem.procs p).header = (s.mem.procs p).header
  loaded : ∀ p, (t.mem.procs p).pc ≤ (t.mem.procs p).text.length
  device : (s.timer.devs (cpuDev i)).Same (t.timer.devs (cpuDev i))
  punctual : Punctual t.timer (cpuDev i)

/-- A step of CPU `i`, or of the others. -/
abbrev CpuAmong (cfg : Config N) (env : Env) (i : Fin c) : Os c N → Bool → Os c N → Prop :=
  Among (fun s t => s.cpuStep cfg env i = some t) (Elsewhere i)

/-- A CPU and its device agree, and the time left is within the slot. -/
structure Quota (cfg : Config N) (i : Fin c) (s : Os c N) : Prop where
  idle : (s.cpus i).loc.proc = none → (s.cpus i).timeLeft = 0
  nonneg : 0 ≤ (s.cpus i).timeLeft
  le : (s.cpus i).timeLeft ≤ cfg.timeSlot
  running : ∀ p, (s.cpus i).loc = .run p → 0 < (s.cpus i).timeLeft
  loaded : ∀ p, (s.mem.procs p).pc ≤ (s.mem.procs p).text.length
  device : DevLinked (s.timer.devs (cpuDev i)) (∃ proc, (s.cpus i).loc = .slot proc)
    ((s.cpus i).loc = .stopped)
  punctual : Punctual s.timer (cpuDev i)

theorem cpuStep_dispatch (here : (s.cpus i).loc = .recheck (some p)) : s.cpuStep cfg env i =
    some (s.setCpu i { s.cpus i with
      loc := .run p
      timeLeft := if (s.cpus i).timeLeft = 0 then cfg.timeSlot else (s.cpus i).timeLeft }) := by
  simp only [cpuStep, here]

namespace Quota

theorem init (positive : 1 ≤ cfg.timeSlot) : Quota cfg i (Os.init cfg : Os c N) where
  idle _ := rfl
  nonneg := le_refl _
  le := show (0 : Int) ≤ cfg.timeSlot by omega
  running p here := by cases here
  loaded p := Nat.zero_le _
  device := (Linked.init cfg).cpu i
  punctual := (OnTime.of_inv Inv.init (cpuDev i)).punctual

/-- In a slot of its own a CPU sees its number of slots as the time. -/
private theorem time (quota : Quota cfg i s) (outside : ∀ proc, (s.cpus i).loc ≠ .slot proc)
    (here : (s.cpus i).loc ≠ .stopped) :
    (s.timer.devs (cpuDev i)).phase = .working ∧
      (s.timer.devs (cpuDev i)).startTimes.length = s.timer.time := by
  have working := quota.device.outside fun ⟨proc, inSlot⟩ => outside proc inSlot
  have attached := quota.device.attached here
  exact ⟨working, quota.punctual.lowered attached (quota.punctual.working attached working)⟩

private theorem rely (quota : Quota cfg i s) (allowed : Elsewhere i s t) : Quota cfg i t where
  idle := by rw [allowed.cpu]; exact quota.idle
  nonneg := by rw [allowed.cpu]; exact quota.nonneg
  le := by rw [allowed.cpu]; exact quota.le
  running := by rw [allowed.cpu]; exact quota.running
  loaded := allowed.loaded
  device := by rw [allowed.cpu]; exact quota.device.congr allowed.device
  punctual := allowed.punctual

end Quota

/-- A step of a CPU keeps its device in order. -/
private theorem CpuMove.device (moved : CpuMove cfg env s i t) (quota : Quota cfg i s) :
    DevLinked (t.timer.devs (cpuDev i)) (∃ proc, (t.cpus i).loc = .slot proc) ((t.cpus i).loc = .stopped) ∧
      Punctual t.timer (cpuDev i) := by
  have own := quota.device
  have onTime := quota.punctual
  have goes : ∀ {cpu : Cpu (Fin N)}, (∀ proc, (s.cpus i).loc ≠ .slot proc) → (s.cpus i).loc ≠ .stopped →
      cpu.loc ≠ .stopped → DevLinked (s.timer.devs (cpuDev i)) (∃ proc, cpu.loc = .slot proc)
        (cpu.loc = .stopped) := by
    intro cpu outside before after
    refine ⟨by simp [own.attached before, after], fun inside => ?_⟩
    exact absurd (own.outside fun ⟨proc, here⟩ => outside proc here) inside
  cases moved with
  | take empty got =>
    refine ⟨?_, onTime⟩
    rw [setCpu_cpus_self]
    obtain here | here := empty <;> exact goes (by simp [here]) (by simp [here]) (by simp)
  | start here outside =>
    have attached := own.attached (by simp [here])
    refine ⟨⟨?_, fun _ => ⟨_, here⟩⟩, ⟨?_, ?_⟩⟩
    · simp [Timer.State.start, Timer.State.setDev, attached, here]
    · simp [Timer.State.start, Timer.State.setDev]
    · simp [Timer.State.start, Timer.State.setDev]
  | sleep here inside raised =>
    have attached := own.attached (by simp [here])
    refine ⟨⟨?_, fun _ => ⟨_, here⟩⟩, ⟨?_, ?_⟩⟩
    · simp [Timer.State.look, Timer.State.setDev, attached, here]
    · simp [Timer.State.look, Timer.State.setDev, raised]
    · simp [Timer.State.look, Timer.State.setDev, raised]
  | wakeUp here inside released =>
    have attached := own.attached (by simp [here])
    refine ⟨⟨?_, ?_⟩, ⟨?_, ?_⟩⟩
    · simp [Timer.State.look, Timer.State.setDev, attached]
    · simp [Timer.State.look, Timer.State.setDev, released]
    · simp [Timer.State.look, Timer.State.setDev, released]
    · simpa [Timer.State.look, Timer.State.setDev, released, attached] using onTime.lowered attached released
  | detach here =>
    have outside := own.outside (by simp [here])
    refine ⟨⟨?_, ?_⟩, ⟨?_, ?_⟩⟩
    · simp [Timer.State.detach, Timer.State.setDev]
    · simp [Timer.State.detach, Timer.State.setDev, outside]
    · simp [Timer.State.detach, Timer.State.setDev]
    · simp [Timer.State.detach, Timer.State.setDev]
  | idle here got | miss here got | retire here got | put here got | keep here got | leave here got
  | skip here got | run here got =>
    refine ⟨?_, onTime⟩
    rw [setCpu_cpus_self]
    exact goes (by simp [here]) (by simp [here]) (by simp)
  | dispatch here =>
    refine ⟨?_, onTime⟩
    rw [setCpu_cpus_self]
    exact goes (by simp [here]) (by simp [here]) (by simp)

/-- What a call of `run` leaves of the headers. -/
private theorem run_pc {mem : Machine (Fin N)} {status : Int}
    (ran : s.mem.run env s.sched.runningList p = .ok (mem, status))
    (loaded : (s.mem.procs p).pc ≤ (s.mem.procs p).text.length) :
    (mem.procs p).text = (s.mem.procs p).text ∧
      (mem.procs p).pc = min ((s.mem.procs p).pc + 1) (s.mem.procs p).text.length ∧
      ∀ q, q ≠ p → (mem.procs q).header = (s.mem.procs q).header := by
  obtain ⟨ended, rfl⟩ | ⟨ins, next, headers⟩ := Machine.run_header ran
  · have last := List.getElem?_eq_none_iff.mp ended
    exact ⟨rfl, by omega, fun _ _ => rfl⟩
  · have inside := (List.getElem?_eq_some_iff.mp next).1
    have own := headers p
    rw [if_pos rfl] at own
    obtain ⟨-, text, -, pc⟩ := Header.mk.inj own
    refine ⟨text, by omega, fun q other => ?_⟩
    rw [headers q, if_neg other]

private theorem Quota.own (quota : Quota cfg i s) (positive : 1 ≤ cfg.timeSlot)
    (taken : s.cpuStep cfg env i = some t) : Quota cfg i t := by
  have moved := cpuStep_move taken
  obtain ⟨device, punctual⟩ := moved.device quota
  have nonneg := quota.nonneg
  have le := quota.le
  suffices kept : ((t.cpus i).loc.proc = none → (t.cpus i).timeLeft = 0) ∧ 0 ≤ (t.cpus i).timeLeft ∧
      (t.cpus i).timeLeft ≤ cfg.timeSlot ∧ (∀ p, (t.cpus i).loc = .run p → 0 < (t.cpus i).timeLeft) ∧
      ∀ p, (t.mem.procs p).pc ≤ (t.mem.procs p).text.length by
    exact ⟨kept.1, kept.2.1, kept.2.2.1, kept.2.2.2.1, kept.2.2.2.2, device, punctual⟩
  cases moved with
  | take empty got =>
    refine ⟨by simp [CpuLoc.proc], ?_, ?_, by simp, quota.loaded⟩ <;> simpa
  | idle here got =>
    have vacant := quota.idle (by rw [here]; rfl)
    refine ⟨fun _ => ?_, ?_, ?_, by simp, quota.loaded⟩ <;> simpa
  | miss here got =>
    have vacant := quota.idle (by rw [here]; rfl)
    refine ⟨fun _ => ?_, ?_, ?_, by simp, quota.loaded⟩ <;> simpa
  | retire here finished =>
    refine ⟨fun _ => ?_, ?_, ?_, by simp, quota.loaded⟩
    · simp
    · simp
    · rw [setCpu_cpus_self]
      exact nonneg.trans le
  | put here unfinished spent =>
    refine ⟨fun _ => ?_, ?_, ?_, by simp, quota.loaded⟩ <;> simpa
  | keep here unfinished left =>
    refine ⟨by simp [CpuLoc.proc], ?_, ?_, by simp, quota.loaded⟩ <;> simpa
  | leave here done =>
    have vacant := quota.idle (by rw [here]; rfl)
    refine ⟨fun _ => ?_, ?_, ?_, by simp, quota.loaded⟩ <;> simpa
  | skip here pending =>
    have vacant := quota.idle (by rw [here]; rfl)
    refine ⟨fun _ => ?_, ?_, ?_, by simp, quota.loaded⟩ <;> simpa
  | @dispatch p timeLeft here =>
    rw [cpuStep_dispatch here, Option.some.injEq] at taken
    have same := congrArg (fun u : Os c N => (u.cpus i).timeLeft) taken
    simp only [setCpu_cpus_self] at same ⊢
    subst same
    refine ⟨by simp [CpuLoc.proc], ?_, ?_, fun _ _ => ?_, quota.loaded⟩ <;> split <;> omega
  | @run p mem status here ran =>
    have left := quota.running p here
    obtain ⟨text, pc, others⟩ := run_pc ran (quota.loaded p)
    refine ⟨by simp [CpuLoc.proc], ?_, ?_, by simp, fun q => ?_⟩
    · simp only [setCpu_cpus_self]
      omega
    · simp only [setCpu_cpus_self]
      omega
    · simp only [setCpu_mem]
      by_cases same : q = p
      · subst same
        rw [pc, text]
        exact Nat.min_le_right _ _
      · obtain ⟨-, text, -, pc⟩ := Header.mk.inj (others q same)
        rw [pc, text]
        exact quota.loaded q
  | start here outside =>
    exact ⟨quota.idle, nonneg, le, quota.running, quota.loaded⟩
  | sleep here inside raised =>
    exact ⟨quota.idle, nonneg, le, quota.running, quota.loaded⟩
  | @wakeUp proc here inside released =>
    refine ⟨fun vacant => ?_, ?_, ?_, by simp, quota.loaded⟩
    · have before : (s.cpus i).loc.proc = none := by rw [here]; simpa [CpuLoc.proc] using vacant
      simpa using quota.idle before
    · simpa
    · simpa
  | detach here =>
    have vacant := quota.idle (by rw [here]; rfl)
    refine ⟨fun _ => ?_, ?_, ?_, by simp, quota.loaded⟩ <;> simpa

theorem Quota.step (quota : Quota cfg i s) (positive : 1 ≤ cfg.timeSlot) {turn : Bool}
    (moved : CpuAmong cfg env i s turn t) : Quota cfg i t := by
  cases moved with
  | own taken => exact quota.own positive taken
  | rely allowed => exact quota.rely allowed

/-- Where a CPU is in a slice of `p` with `n` calls of `run`, the first one in slot `first`. `more` is the
condition for another call. -/
inductive SlicePlace (p : Fin N) (first n : ℕ) (more : Prop) (cpu : Cpu (Fin N)) (dev : Device) : Prop
  | run (here : cpu.loc = .run p) (slots : dev.startTimes.length = first + n) (due : n = 0 ∨ more)
  | slot (here : cpu.loc = .slot (some p)) (ran : 0 < n)
      (outside : dev.phase = .working → dev.startTimes.length + 1 = first + n)
      (inside : dev.phase ≠ .working → dev.startTimes.length = first + n)
  | top (here : cpu.loc = .top (some p)) (ran : 0 < n) (slots : dev.startTimes.length = first + n)
  | recheck (here : cpu.loc = .recheck (some p)) (ran : 0 < n) (slots : dev.startTimes.length = first + n)
      (due : more)

/-- The slice of `p` that began in state `a` has had `n` calls of `run`. -/
structure Slice (cfg : Config N) (i : Fin c) (p : Fin N) (a : Os c N) (n : ℕ) (s : Os c N) : Prop where
  runTimes : (s.cpus i).runTimes = (a.cpus i).runTimes ++ List.range' a.timer.time n
  text : (s.mem.procs p).text = (a.mem.procs p).text
  pc : (s.mem.procs p).pc = min ((a.mem.procs p).pc + n) (a.mem.procs p).text.length
  timeLeft : (s.cpus i).timeLeft = cfg.timeSlot - n
  within : n ≤ 1 ∨ (a.mem.procs p).pc + n ≤ (a.mem.procs p).text.length
  place : SlicePlace p a.timer.time n
    ((a.mem.procs p).pc + n < (a.mem.procs p).text.length ∧ n < cfg.timeSlot) (s.cpus i)
    (s.timer.devs (cpuDev i))

namespace Slice

variable {n : ℕ}

/-- The dispatch begins the slice. -/
private theorem begin (quota : Quota cfg i a) (here : (a.cpus i).loc = .recheck (some p))
    (spent : (a.cpus i).timeLeft = 0) (taken : a.cpuStep cfg env i = some s) : Slice cfg i p a 0 s := by
  rw [cpuStep_dispatch here, if_pos spent, Option.some.injEq] at taken
  subst taken
  have clock := (quota.time (by simp [here]) (by simp [here])).2
  refine ⟨by simp, rfl, ?_, by simp, .inl (Nat.zero_le 1), ?_⟩
  · rw [setCpu_mem, Nat.add_zero, Nat.min_eq_left (quota.loaded p)]
  · rw [setCpu_cpus_self]
    exact .run rfl clock (.inl rfl)

private theorem rely (slice : Slice cfg i p a n s) (allowed : Elsewhere i s t) : Slice cfg i p a n t := by
  have held : (s.cpus i).loc.proc = some p := by
    obtain here | here | here | here := slice.place <;> rw [here] <;> rfl
  obtain ⟨-, text, -, pc⟩ := Header.mk.inj (allowed.held p held)
  refine ⟨?_, text.trans slice.text, pc.trans slice.pc, ?_, slice.within, ?_⟩
  · rw [allowed.cpu]
    exact slice.runTimes
  · rw [allowed.cpu]
    exact slice.timeLeft
  · rw [allowed.cpu]
    obtain ⟨fsh, working, starts⟩ := allowed.device
    cases slice.place with
    | run here slots due => exact .run here (starts ▸ slots) due
    | slot here ran outside inside =>
      refine .slot here ran ?_ ?_
      · rw [starts]
        exact fun there => outside (working.mp there)
      · rw [starts]
        exact fun there => inside fun before => there (working.mpr before)
    | top here ran slots => exact .top here ran (starts ▸ slots)
    | recheck here ran slots due => exact .recheck here ran (starts ▸ slots) due

/-- One more call of `run`. -/
private theorem call (slice : Slice cfg i p a n s) (quota : Quota cfg i s) (here : (s.cpus i).loc = .run p)
    {mem : Machine (Fin N)} {status : Int} (ran : s.mem.run env s.sched.runningList p = .ok (mem, status))
    (cpu : t.cpus i = ⟨.slot (some p), (s.cpus i).timeLeft - 1, (s.cpus i).runTimes ++ [s.timer.time]⟩)
    (stored : t.mem = mem) (timer : t.timer = s.timer) : Slice cfg i p a (n + 1) t := by
  obtain ⟨working, clock⟩ := quota.time (by simp [here]) (by simp [here])
  obtain ⟨text, pc, -⟩ := run_pc ran (quota.loaded p)
  have before := slice.pc
  have size := congrArg List.length slice.text
  have left := slice.timeLeft
  obtain ⟨slots, due⟩ : (s.timer.devs (cpuDev i)).startTimes.length = a.timer.time + n ∧
      (n = 0 ∨ (a.mem.procs p).pc + n < (a.mem.procs p).text.length ∧ n < cfg.timeSlot) := by
    cases slice.place with
    | run _ slots due => exact ⟨slots, due⟩
    | slot other | top other | recheck other => cases here.symm.trans other
  refine ⟨?_, ?_, ?_, ?_, by omega, ?_⟩
  · rw [cpu, slice.runTimes, ← clock, slots, List.append_assoc, List.range'_1_concat]
  · rw [stored, text, slice.text]
  · rw [stored, pc, before]
    omega
  · rw [cpu]
    push_cast
    omega
  · rw [cpu, timer]
    refine .slot rfl (Nat.succ_pos n) (fun _ => by omega) (fun inside => absurd working inside)

/-- A step of the CPU that keeps the process continues the slice. -/
private theorem own (slice : Slice cfg i p a n s) (quota : Quota cfg i s) (taken : s.cpuStep cfg env i = some t)
    (held : (t.cpus i).loc.proc = some p) : ∃ n, Slice cfg i p a n t := by
  have holding : (s.cpus i).loc.proc = some p := by
    obtain here | here | here | here := slice.place <;> rw [here] <;> rfl
  cases cpuStep_move taken with
  | take empty got =>
    obtain here | here := empty <;> rw [here] at holding <;> cases holding
  | idle here got | miss here got | leave here done | skip here pending | detach here =>
    rw [here] at holding
    cases holding
  | retire here finished | put here unfinished spent =>
    rw [setCpu_cpus_self] at held
    cases held
  | @keep q here unfinished left =>
    obtain ⟨ran, slots⟩ : 0 < n ∧ (s.timer.devs (cpuDev i)).startTimes.length = a.timer.time + n := by
      cases slice.place with
      | top _ ran slots => exact ⟨ran, slots⟩
      | run other | slot other | recheck other => cases here.symm.trans other
    rw [here] at holding
    obtain rfl := Option.some.inj holding
    have size := congrArg List.length slice.text
    have pc := slice.pc
    have timeLeft := slice.timeLeft
    have nonneg := quota.nonneg
    rw [Finished] at unfinished
    refine ⟨n, by simpa using slice.runTimes, slice.text, slice.pc, by simpa using timeLeft, slice.within, ?_⟩
    rw [setCpu_cpus_self]
    exact .recheck rfl ran slots ⟨by omega, by omega⟩
  | @dispatch q timeLeft here =>
    obtain ⟨slots, due⟩ : (s.timer.devs (cpuDev i)).startTimes.length = a.timer.time + n ∧
        ((a.mem.procs p).pc + n < (a.mem.procs p).text.length ∧ n < cfg.timeSlot) := by
      cases slice.place with
      | recheck _ _ slots due => exact ⟨slots, due⟩
      | run other | slot other | top other => cases here.symm.trans other
    rw [here] at holding
    obtain rfl := Option.some.inj holding
    have left := slice.timeLeft
    rw [cpuStep_dispatch here, if_neg (by omega), Option.some.injEq] at taken
    rw [← taken]
    refine ⟨n, by simpa using slice.runTimes, slice.text, slice.pc, by simpa using left, slice.within, ?_⟩
    rw [setCpu_cpus_self]
    exact .run rfl slots (.inr due)
  | @run q mem status here ran =>
    rw [here] at holding
    obtain rfl := Option.some.inj holding
    exact ⟨n + 1, slice.call quota here ran (setCpu_cpus_self _ _ _) rfl rfl⟩
  | start here outside =>
    obtain ⟨same, ran, slots⟩ : (s.cpus i).loc = .slot (some p) ∧ 0 < n ∧
        (s.timer.devs (cpuDev i)).startTimes.length + 1 = a.timer.time + n := by
      cases slice.place with
      | slot there ran before _ => exact ⟨there, ran, before outside⟩
      | run other | recheck other | top other => cases here.symm.trans other
    refine ⟨n, slice.runTimes, slice.text, slice.pc, slice.timeLeft, slice.within, .slot same ran ?_ ?_⟩
    · simp [Timer.State.start, Timer.State.setDev]
    · simpa [Timer.State.start, Timer.State.setDev] using slots
  | sleep here inside raised =>
    obtain ⟨same, ran, slots⟩ : (s.cpus i).loc = .slot (some p) ∧ 0 < n ∧
        (s.timer.devs (cpuDev i)).startTimes.length = a.timer.time + n := by
      cases slice.place with
      | slot there ran _ after => exact ⟨there, ran, after (by simp [inside])⟩
      | run other | recheck other | top other => cases here.symm.trans other
    refine ⟨n, slice.runTimes, slice.text, slice.pc, slice.timeLeft, slice.within, .slot same ran ?_ ?_⟩
    · simp [Timer.State.look, Timer.State.setDev, raised]
    · simpa [Timer.State.look, Timer.State.setDev, raised] using slots
  | @wakeUp proc here inside released =>
    obtain ⟨ran, slots⟩ : 0 < n ∧ (s.timer.devs (cpuDev i)).startTimes.length = a.timer.time + n := by
      cases slice.place with
      | slot there ran _ after => exact ⟨ran, after (by simp [inside])⟩
      | run other | recheck other | top other => cases here.symm.trans other
    rw [here] at holding
    obtain rfl : proc = some p := holding
    refine ⟨n, by simpa using slice.runTimes, slice.text, slice.pc, by simpa using slice.timeLeft,
      slice.within, ?_⟩
    rw [setCpu_cpus_self]
    exact .top rfl ran (by simpa [Timer.State.look, Timer.State.setDev] using slots)

/-- What ends a slice: the process is freed at its end, or put back before it with no time left. Then the
number of calls is as the slot and the program demand. -/
private theorem finish (slice : Slice cfg i p a n s) (quota : Quota cfg i s) (loaded : Quota cfg i a)
    (positive : 1 ≤ cfg.timeSlot) (here : (s.cpus i).loc = .top (some p))
    (ended : s.Finished p ∨ (s.cpus i).timeLeft = 0) :
    n = max 1 (min cfg.timeSlot.toNat ((a.mem.procs p).text.length - (a.mem.procs p).pc)) := by
  have ran : 0 < n := by
    cases slice.place with
    | top _ ran _ => exact ran
    | run other | slot other | recheck other => cases here.symm.trans other
  have size := congrArg List.length slice.text
  have pc := slice.pc
  have timeLeft := slice.timeLeft
  have within := slice.within
  have nonneg := quota.nonneg
  have bound := loaded.loaded p
  rw [Finished] at ended
  omega

end Slice

/-- The CPU gives the process up in its next step. -/
def GivesUp (cfg : Config N) (env : Env) (i : Fin c) (p : Fin N) (s t : Os c N) : Prop :=
  s.cpuStep cfg env i = some t ∧ (s.cpus i).loc.proc = some p ∧ (t.cpus i).loc.proc ≠ some p

/-- A process is given up when it is finished, and freed then; or before its end and with no time left, and
put back then. -/
private theorem GivesUp.cases (gives : GivesUp cfg env i p s t) (quota : Quota cfg i s) :
    (s.cpus i).loc = .top (some p) ∧
      ((s.Finished p ∧ t.freed p = true) ∨
        (t.sched = s.sched.putProc (s.mem.procs p).prio p ∧
          (s.mem.procs p).pc < (s.mem.procs p).text.length ∧ (s.cpus i).timeLeft = 0)) := by
  obtain ⟨taken, holding, gone⟩ := gives
  cases cpuStep_move taken with
  | take empty got => obtain here | here := empty <;> rw [here] at holding <;> cases holding
  | idle here got | miss here got | leave here done | skip here pending | detach here =>
    rw [here] at holding
    cases holding
  | retire here finished =>
    rw [here] at holding
    obtain rfl := Option.some.inj holding
    exact ⟨here, .inl ⟨finished, by simp⟩⟩
  | @put q here unfinished spent =>
    rw [here] at holding
    obtain rfl := Option.some.inj holding
    exact ⟨here, .inr ⟨rfl, Nat.lt_of_le_of_ne (quota.loaded q) unfinished, spent⟩⟩
  | keep here unfinished left | dispatch here | run here ran | wakeUp here inside released =>
    rw [here] at holding
    rw [setCpu_cpus_self] at gone
    exact absurd holding gone
  | start here outside => exact absurd holding gone
  | sleep here inside raised => exact absurd holding gone

/-- A step during which CPU `i` keeps holding the process. -/
def Holding (cfg : Config N) (env : Env) (i : Fin c) (p : Fin N) (s : Os c N) (turn : Bool) (t : Os c N) : Prop :=
  CpuAmong cfg env i s turn t ∧ (t.cpus i).loc.proc = some p

theorem quota_of_run (positive : 1 ≤ cfg.timeSlot) {turns : List Bool}
    (run : Run (CpuAmong cfg env i) (init cfg) turns s) : Quota cfg i s :=
  run.keeps (.init positive) fun _ _ _ quota moved => quota.step positive moved

/-- As long as the CPU holds the process, the slice goes on. -/
theorem Slice.run (quota : Quota cfg i s) (positive : 1 ≤ cfg.timeSlot) {n : ℕ} (slice : Slice cfg i p a n s)
    {turns : List Bool} (run : Run (Holding cfg env i p) s turns t) :
    Quota cfg i t ∧ ∃ n, Slice cfg i p a n t := by
  induction run with
  | start => exact ⟨quota, n, slice⟩
  | next _ taken ih =>
    obtain ⟨now, n, slice⟩ := ih
    obtain ⟨moved, held⟩ := taken
    refine ⟨now.step positive moved, ?_⟩
    cases moved with
    | own taken => exact slice.own now taken held
    | rely allowed => exact ⟨n, slice.rely allowed⟩

/-- Whatever the ready queues do: the time left is 0 without a process and stays within the time slot; a
process is given up only at its end, or put back before its end with no time left; and from a dispatch to
the step that gives the process up, `run` is called as often as the slot and the program demand, in
consecutive slots. -/
theorem time_slices (positive : 1 ≤ cfg.timeSlot) {turns : List Bool}
    (run : Run (CpuAmong cfg env i) (init cfg) turns s) :
    ((s.cpus i).loc.proc = none → (s.cpus i).timeLeft = 0) ∧
    (0 ≤ (s.cpus i).timeLeft ∧ (s.cpus i).timeLeft ≤ cfg.timeSlot) ∧
    (∀ p t, GivesUp cfg env i p s t → (s.Finished p ∧ t.freed p = true) ∨
      (t.sched = s.sched.putProc (s.mem.procs p).prio p ∧
        (s.mem.procs p).pc < (s.mem.procs p).text.length ∧ (s.cpus i).timeLeft = 0)) ∧
    ∀ p first slice last after, (s.cpus i).loc = .recheck (some p) → (s.cpus i).timeLeft = 0 →
      s.cpuStep cfg env i = some first → Run (Holding cfg env i p) first slice last →
      GivesUp cfg env i p last after →
        (last.cpus i).runTimes = (s.cpus i).runTimes ++ List.range' s.timer.time
          (max 1 (min cfg.timeSlot.toNat ((s.mem.procs p).text.length - (s.mem.procs p).pc))) := by
  have quota := quota_of_run positive run
  refine ⟨quota.idle, ⟨quota.nonneg, quota.le⟩, fun p t gives => (gives.cases quota).2, ?_⟩
  intro p first slice last after here spent taken during gives
  have begun := Slice.begin quota here spent taken
  obtain ⟨now, n, sliced⟩ := begun.run (quota.own positive taken) positive during
  obtain ⟨there, ended⟩ := gives.cases now
  rw [← sliced.finish now quota positive there (ended.imp And.left fun put => put.2.2)]
  exact sliced.runTimes

/-- A process of two instructions, with a slot of one: a call, a slot, and it is put back. -/
theorem time_slices_of_one_call :
    let cfg : Config 1 := .atOnce 16 (fun _ => [⟨.calc, 0, 0, 0, 0⟩, ⟨.calc, 0, 0, 0, 0⟩]) 0
    let env : Env := ⟨.head, fun _ => 0⟩
    ∃ turns slice, ∃ s first last after : Os 1 1, Run (CpuAmong cfg env 0) (init cfg) turns s ∧
      Run (Holding cfg env 0 0) first slice last ∧ GivesUp cfg env 0 0 last after ∧
      (last.cpus 0).runTimes = (s.cpus 0).runTimes ++ List.range' s.timer.time 1 := by
  intro cfg env
  let ready : Os 1 1 := { init cfg with sched := (init cfg : Os 1 1).sched.addProc 0 0 }
  let chosen : Os 1 1 := { ready with sched := ready.sched.getProc.1 }.setCpu 0 ⟨.recheck (some 0), 0, []⟩
  let first : Os 1 1 := chosen.setCpu 0 ⟨.run 0, 1, []⟩
  let executed := Function.update first.executed 0 [⟨.calc, 0, 0, 0, 0⟩]
  let ran : Os 1 1 := { first with mem := first.mem.advance 0, executed }.setCpu 0 ⟨.slot (some 0), 0, [0]⟩
  let waiting : Os 1 1 := { ran with timer := ran.timer.start 1 }.setCpu 0 ⟨.slot (some 0), 0, [0]⟩
  let timer := waiting.timer.releaseDevice 1
  let released : Os 1 1 := { waiting with timer := { timer with time := 1 } }
  let last : Os 1 1 := { released with timer := released.timer.look 1 }.setCpu 0 ⟨.top (some 0), 0, [0]⟩
  let after : Os 1 1 := { last with sched := last.sched.putProc 0 0 }.setCpu 0 ⟨.fetch, 0, [0]⟩
  have added : Elsewhere 0 (init cfg) ready := by
    refine ⟨rfl, ?_, ?_, .refl _, ?_⟩
    · intro p held
      cases held
    · intro p
      exact Nat.zero_le _
    · exact (OnTime.of_inv Inv.init _).punctual
  have taken : ready.cpuStep cfg env 0 = some chosen := rfl
  have dispatched : chosen.cpuStep cfg env 0 = some first := rfl
  have called : first.cpuStep cfg env 0 = some ran := rfl
  have entered : ran.cpuStep cfg env 0 = some waiting := rfl
  have slot : Elsewhere 0 waiting released := by
    refine ⟨rfl, fun _ _ => rfl, ?_, ⟨rfl, ?_, rfl⟩, ⟨fun _ _ => rfl, fun _ _ => rfl⟩⟩
    · decide
    · decide
  have returned : released.cpuStep cfg env 0 = some last := rfl
  have put : last.cpuStep cfg env 0 = some after := rfl
  have run : Run (CpuAmong cfg env 0) (init cfg) ([false] ++ [true]) chosen :=
    (Run.one (.rely added)).next (.own taken)
  have during : Run (Holding cfg env 0 0) first ([true] ++ [true] ++ [false] ++ [true]) last :=
    (((Run.one ⟨.own called, rfl⟩).next ⟨.own entered, rfl⟩).next ⟨.rely slot, rfl⟩).next ⟨.own returned, rfl⟩
  have gives : GivesUp cfg env 0 0 last after := ⟨put, rfl, by decide⟩
  obtain ⟨-, -, -, exactly⟩ := time_slices (by decide) run
  exact ⟨_, _, chosen, first, last, after, run, during, gives,
    exactly 0 first _ last after rfl rfl dispatched during gives⟩

/-- In the whole simulator the other threads are such others. -/
theorem Reachable.cpuAmong (reached : Reachable cfg env s) (i : Fin c) :
    ∃ turns, Run (CpuAmong cfg env i) (Os.init cfg) turns s := by
  obtain ⟨labels, run⟩ := reached
  apply run.among
  intro before now label after earlier taken
  have reached : Reachable cfg env now := ⟨_, earlier⟩
  have later := reached.next taken
  have elsewhere : now.cpus i = after.cpus i → (∀ p, (now.cpus i).loc.proc = some p →
      (after.mem.procs p).header = (now.mem.procs p).header) →
      (now.timer.devs (cpuDev i)).Same (after.timer.devs (cpuDev i)) → Elsewhere i now after := by
    intro cpu held device
    refine ⟨cpu.symm, held, fun p => ?_, device, (OnTime.of_inv later.linked.inv _).punctual⟩
    rw [(later.loaded p).text]
    exact (later.loaded p).pc_le
  cases Step.move taken with
  | clock moved => exact .inr (elsewhere rfl (fun _ _ => rfl) (moved.same _))
  | loader moved =>
    obtain ⟨cpus, device⟩ := moved.others i
    refine .inr (elsewhere (by rw [cpus]) (fun _ _ => ?_) (device ▸ .refl _))
    cases moved <;> rfl
  | stop stopped finished => exact .inr (elsewhere rfl (fun _ _ => rfl) (.refl _))
  | @cpu j _ moved =>
    by_cases same : j = i
    · subst same
      exact .inl taken
    · obtain ⟨cpu, device⟩ := moved.others (Ne.symm same)
      refine .inr (elsewhere cpu.symm (fun p held => ?_) (device ▸ .refl _))
      cases moved with
      | @run q mem status here ran =>
        have other : p ≠ q := by
          rintro rfl
          exact same ((reached.accounted p).holder_unique (by rw [here]; rfl) held)
        have loaded := reached.loaded q
        exact (run_pc ran (loaded.text ▸ loaded.pc_le)).2.2 p other
      | _ => rfl

end SimpleOS.Model.Os
