import SimpleOS.Model.Timer

/-! # The barrier invariant

A device is due while the second loop of `timer_routine` has not reached it: its `done` still stands for
the slot that is over, so the slots it has started are the time itself. Everywhere else a raised `done`
is one slot ahead of the time. Devices that were released early may raise `done` again while later ones
are due, and nothing but this distinction is needed to keep the two apart.
-/

namespace SimpleOS.Model.Timer

variable {n : ℕ} {s t : State n} {d : Fin n}

namespace Thread

/-- The second loop has not reached device `d`. -/
def due : Thread → ℕ → Bool
  | .release i _ _, d => i ≤ d
  | _, _ => false

/-- The first loop has passed device `d`. -/
def waited : Thread → ℕ → Bool
  | .wait i _ _, d => d < i
  | .asleep i _ _, d => d < i
  | _, _ => false

@[simp] theorem due_signal (thread : Thread) (d e : ℕ) : (thread.signal d).due e = thread.due e := by
  cases thread with
  | asleep i fsh event => simp only [signal]; split_ifs <;> rfl
  | _ => rfl

@[simp] theorem waited_signal (thread : Thread) (d e : ℕ) :
    (thread.signal d).waited e = thread.waited e := by
  cases thread with
  | asleep i fsh event => simp only [signal]; split_ifs <;> rfl
  | _ => rfl

/-- A signal on device `d` leaves no thread asleep on it. -/
theorem signal_eq_asleep {thread : Thread} {d i fsh event : ℕ}
    (slept : thread.signal d = .asleep i fsh event) : thread = .asleep i fsh event ∧ i ≠ d := by
  cases thread with
  | asleep j f e =>
    simp only [signal] at slept
    split_ifs at slept with here
    cases slept
    exact ⟨rfl, here⟩
  | _ => cases slept

end Thread

/-- What holds of device `d` at a given time and place of the timer thread. -/
structure Device.Ok (time : ℕ) (thread : Thread) (d : ℕ) (dev : Device) : Prop where
  working : dev.phase = .working → dev.fsh = false → dev.done = false
  asleep : dev.phase = .asleep → dev.done = true
  attached : dev.phase ≠ .working → dev.fsh = false
  times : dev.startTimes = List.range dev.startTimes.length
  due : thread.due d = true → dev.fsh = false → dev.done = true ∧ dev.startTimes.length = time
  count : thread.due d = false → dev.fsh = false → dev.startTimes.length = time + dev.done.toNat
  waited : thread.waited d = true → dev.fsh = false → dev.done = true
  awaited : ∀ fsh event, thread = .asleep d fsh event → dev.done = false ∧ dev.fsh = false

/-- The local variables of `timer_routine` count the devices it has passed and found detached. -/
def Thread.Counts (devs : Fin n → Device) : Thread → Prop
  | .top => True
  | .wait i fsh event => event = i ∧ i ≤ n ∧ fsh ≤ i ∧ (fsh = i → ∀ d : Fin n, d < i → (devs d).fsh = true)
  | .asleep i fsh event =>
    event = i ∧ i ≤ n ∧ fsh ≤ i ∧ (fsh = i → ∀ d : Fin n, d < i → (devs d).fsh = true)
  | .release _ fsh event => event = n ∧ (fsh = n → ∀ d : Fin n, (devs d).fsh = true)
  | .exited => ∀ d, (devs d).fsh = true

/-- The invariant of the timer and all its devices. -/
structure Inv (s : State n) : Prop where
  device : ∀ d : Fin n, (s.devs d).Ok s.time s.thread d
  counts : s.thread.Counts s.devs
  stopped : s.timerStop = true → ∀ d, (s.devs d).fsh = true

theorem Inv.init : Inv (State.init n) where
  device d := by constructor <;> simp [State.init, Thread.due, Thread.waited]
  counts := trivial
  stopped := by simp [State.init]

/-- Detached devices stay detached, so the counts stay right. -/
theorem Thread.Counts.mono {thread : Thread} {devs devs' : Fin n → Device} (counts : thread.Counts devs)
    (kept : ∀ d, (devs d).fsh = true → (devs' d).fsh = true) : thread.Counts devs' := by
  cases thread with
  | top => trivial
  | wait i fsh event =>
    obtain ⟨events, bound, le, all⟩ := counts
    exact ⟨events, bound, le, fun full d before => kept d (all full d before)⟩
  | asleep i fsh event =>
    obtain ⟨events, bound, le, all⟩ := counts
    exact ⟨events, bound, le, fun full d before => kept d (all full d before)⟩
  | release i fsh event =>
    obtain ⟨events, all⟩ := counts
    exact ⟨events, fun full d => kept d (all full d)⟩
  | exited => exact fun d => kept d (counts d)

private theorem Thread.Counts.signal {thread : Thread} {devs : Fin n → Device} (counts : thread.Counts devs)
    (d : ℕ) : (thread.signal d).Counts devs := by
  cases thread with
  | asleep i fsh event =>
    simp only [Thread.signal]
    split_ifs
    · exact counts
    · exact counts
  | _ => exact counts

/-- A device that only another device's signal passes by stays as it is. -/
private theorem Device.Ok.signal {time : ℕ} {thread : Thread} {e : ℕ} {dev : Device}
    (ok : dev.Ok time thread e) (d : ℕ) : dev.Ok time (thread.signal d) e where
  working := ok.working
  asleep := ok.asleep
  attached := ok.attached
  times := ok.times
  due := by simpa using ok.due
  count := by simpa using ok.count
  waited := by simpa using ok.waited
  awaited fsh event slept := ok.awaited fsh event (Thread.signal_eq_asleep slept).1

/-- One device changes and keeps its flag `fsh` raised. -/
private theorem Inv.setDev (inv : Inv s) {dev : Device} (ok : dev.Ok s.time s.thread d)
    (kept : (s.devs d).fsh = true → dev.fsh = true) : Inv (s.setDev d dev) := by
  have raised : ∀ e, (s.devs e).fsh = true → (Function.update s.devs d dev e).fsh = true := by
    rw [Function.forall_update_iff s.devs (p := fun e dev => (s.devs e).fsh = true → dev.fsh = true)]
    exact ⟨kept, fun e _ => id⟩
  constructor
  · exact (Function.forall_update_iff s.devs (p := fun e dev => dev.Ok s.time s.thread (e : Fin n))).mpr
      ⟨ok, fun e _ => inv.device e⟩
  · exact inv.counts.mono raised
  · intro stop e
    exact raised e (inv.stopped stop e)

private theorem Inv.signal (inv : Inv s) (e : ℕ) : Inv { s with thread := s.thread.signal e } where
  device d := (inv.device d).signal e
  counts := inv.counts.signal e
  stopped := inv.stopped

/-- A device outside `next_slot` has started one slot for each tick. -/
theorem Device.Ok.started {time : ℕ} {thread : Thread} {e : ℕ} {dev : Device} (ok : dev.Ok time thread e)
    (attached : dev.fsh = false) (lowered : dev.done = false) :
    thread.due e = false ∧ dev.startTimes.length = time := by
  have passed : thread.due e = false := by
    apply Bool.eq_false_iff.mpr
    intro due
    rw [(ok.due due attached).1] at lowered
    cases lowered
  refine ⟨passed, ?_⟩
  rw [ok.count passed attached, lowered]
  rfl

theorem Inv.start (inv : Inv s) (attached : (s.devs d).fsh = false)
    (outside : (s.devs d).phase = .working) : Inv (s.start d) := by
  have signalled := inv.signal d
  have ok := inv.device d
  obtain ⟨passed, started⟩ := ok.started attached (ok.working outside attached)
  refine Inv.setDev signalled (d := d) ?_ (by simp)
  constructor
  · simp
  · simp
  · exact fun _ => attached
  · rw [ok.times, started]
    simp [List.range_succ]
  · simp [passed]
  · simp [started]
  · simp
  · intro fsh event slept
    exact absurd rfl (Thread.signal_eq_asleep slept).2

theorem Inv.look (inv : Inv s) (inside : (s.devs d).phase = .entered) : Inv (s.look d) := by
  have ok := inv.device d
  have attached := ok.attached (by rw [inside]; nofun)
  refine inv.setDev ?_ (by simp)
  constructor
  · simpa using fun lowered _ => lowered
  · simp
  · exact fun _ => attached
  · exact ok.times
  · exact ok.due
  · exact ok.count
  · exact ok.waited
  · exact ok.awaited

private theorem Inv.wake (inv : Inv s) (taken : s.wake d = some t) : Inv t := by
  simp only [State.wake] at taken
  split_ifs at taken with asleep
  cases taken
  have ok := inv.device d
  refine inv.setDev ?_ (by simp)
  constructor
  · simp
  · simp
  · exact fun _ => ok.attached (by rw [asleep]; nofun)
  · exact ok.times
  · exact ok.due
  · exact ok.count
  · exact ok.waited
  · exact ok.awaited

private theorem Inv.nextSlot (inv : Inv s) (attached : (s.devs d).fsh = false) (taken : s.nextSlot d = some t) :
    Inv t := by
  simp only [State.nextSlot] at taken
  split at taken
  · cases taken
    exact inv.start attached ‹_›
  · cases taken
    exact inv.look ‹_›
  · cases taken

theorem Inv.detach (inv : Inv s) (outside : (s.devs d).phase = .working) : Inv (s.detach d) := by
  have signalled := inv.signal d
  have ok := inv.device d
  refine Inv.setDev signalled (d := d) ?_ (by simp)
  constructor
  · simp
  · simp [outside]
  · simp [outside]
  · exact ok.times
  · simp
  · simp
  · simp
  · intro fsh event slept
    exact absurd rfl (Thread.signal_eq_asleep slept).2

theorem Inv.stop (inv : Inv s) (all : ∀ d, (s.devs d).fsh = true) : Inv s.stop :=
  ⟨inv.device, inv.counts, fun _ => all⟩

private theorem Inv.wakeTimer (inv : Inv s) (taken : s.wakeTimer = some t) : Inv t := by
  simp only [State.wakeTimer] at taken
  split at taken
  · rename_i i fsh event slept
    cases taken
    obtain ⟨device, counts, stopped⟩ := inv
    rw [slept] at counts
    refine ⟨fun e => ?_, counts, stopped⟩
    have ok := device e
    rw [slept] at ok
    exact ⟨ok.working, ok.asleep, ok.attached, ok.times, ok.due, ok.count, ok.waited, by simp⟩
  · cases taken

/-- The timer thread moves on, and the flags of no device change. -/
private theorem Inv.setThread (inv : Inv s) {time : ℕ} {thread : Thread}
    (device : ∀ d : Fin n, (s.devs d).Ok s.time s.thread d → (s.devs d).Ok time thread d)
    (counts : thread.Counts s.devs) : Inv { s with time, thread } :=
  ⟨fun d => device d (inv.device d), counts, inv.stopped⟩

/-- The first loop goes to sleep on device `i`. -/
private theorem Inv.sleep (inv : Inv s) {i fsh event : ℕ} (bound : i < n) (here : s.thread = .wait i fsh event)
    (idle : (s.devs ⟨i, bound⟩).done = false ∧ (s.devs ⟨i, bound⟩).fsh = false) :
    Inv { s with thread := .asleep i fsh event } := by
  have counts := inv.counts
  rw [here] at counts
  refine inv.setThread (fun e ok => ?_) counts
  rw [here] at ok
  refine ⟨ok.working, ok.asleep, ok.attached, ok.times, ok.due, ok.count, ok.waited, ?_⟩
  rintro _ _ ⟨⟩
  exact idle

/-- The first loop passes device `i`. -/
private theorem Inv.pass (inv : Inv s) {i fsh event : ℕ} (bound : i < n) (here : s.thread = .wait i fsh event)
    (raised : (s.devs ⟨i, bound⟩).fsh = false → (s.devs ⟨i, bound⟩).done = true) :
    let counted := if (s.devs ⟨i, bound⟩).fsh then fsh + 1 else fsh
    Inv { s with thread := .wait (i + 1) counted (event + 1) } := by
  intro counted
  have counts := inv.counts
  rw [here] at counts
  obtain ⟨events, _, le, all⟩ := counts
  have step : counted = fsh + 1 ∧ (s.devs ⟨i, bound⟩).fsh = true ∨ counted = fsh := by
    simp only [counted]
    split
    · exact .inl ⟨rfl, ‹_›⟩
    · exact .inr rfl
  refine inv.setThread (fun e ok => ?_) ⟨by omega, bound, by omega, fun full e before => ?_⟩
  · rw [here] at ok
    refine ⟨ok.working, ok.asleep, ok.attached, ok.times, ok.due, ok.count, fun passed => ?_, by simp⟩
    obtain before | last := Nat.lt_succ_iff_lt_or_eq.mp (of_decide_eq_true passed)
    · exact ok.waited (decide_eq_true before)
    · obtain rfl : e = ⟨i, bound⟩ := Fin.ext last
      exact raised
  · obtain before | last := Nat.lt_succ_iff_lt_or_eq.mp before
    · exact all (by omega) e before
    · obtain rfl : e = ⟨i, bound⟩ := Fin.ext last
      obtain ⟨_, detached⟩ | kept := step
      · exact detached
      · omega

/-- All devices are waiting, and the time goes up. -/
private theorem Inv.tick (inv : Inv s) {i fsh event : ℕ} (last : ¬i < n) (here : s.thread = .wait i fsh event) :
    Inv { s with time := s.time + 1, thread := .release 0 fsh event } := by
  have counts := inv.counts
  rw [here] at counts
  obtain ⟨events, bound, le, all⟩ := counts
  obtain rfl : i = n := by omega
  refine inv.setThread (fun e ok => ?_) ⟨events, fun full e => all full e e.isLt⟩
  rw [here] at ok
  refine ⟨ok.working, ok.asleep, ok.attached, ok.times, fun _ attached => ?_, ?_, ?_, by simp⟩
  · have raised := ok.waited (decide_eq_true e.isLt) attached
    refine ⟨raised, ?_⟩
    rw [ok.count rfl attached, raised]
    rfl
  · simp [Thread.due]
  · simp [Thread.waited]

/-- What the timer thread leaves of a device. -/
structure Device.Same (dev dev' : Device) : Prop where
  fsh : dev'.fsh = dev.fsh
  working : dev'.phase = .working ↔ dev.phase = .working
  startTimes : dev'.startTimes = dev.startTimes

theorem Device.Same.refl (dev : Device) : dev.Same dev := ⟨rfl, Iff.rfl, rfl⟩

theorem State.setDev_same {dev : Device} (same : (s.devs d).Same dev) (e : Fin n) :
    (s.devs e).Same ((s.setDev d dev).devs e) := by
  simp only [State.setDev, Function.update_apply]
  split
  · rename_i here
    rw [here]
    exact same
  · exact .refl _

private theorem State.releaseDevice_same (s : State n) (d e : Fin n) :
    (s.devs e).Same ((s.releaseDevice d).devs e) := by
  have same : (s.devs d).Same { s.devs d with done := false, phase := (s.devs d).phase.signal } := by
    refine ⟨rfl, ?_, rfl⟩
    cases (s.devs d).phase <;> simp [Phase.signal]
  exact State.setDev_same same e

/-- The section that releases device `i`. -/
private theorem Inv.release (inv : Inv s) {i fsh event : ℕ} (bound : i < n)
    (here : s.thread = .release i fsh event) :
    Inv { s.releaseDevice ⟨i, bound⟩ with thread := .release (i + 1) fsh event } := by
  obtain ⟨device, counts, stopped⟩ := inv
  rw [here] at counts
  refine ⟨?_, ?_, ?_⟩
  · refine (Function.forall_update_iff s.devs
      (p := fun e dev => dev.Ok s.time (.release (i + 1) fsh event) (e : Fin n))).mpr ⟨?_, fun e other => ?_⟩
    · have ok := device ⟨i, bound⟩
      rw [here] at ok
      refine ⟨by simp, ?_, ?_, ok.times, by simp [Thread.due], fun _ attached => ?_, ?_, by simp⟩
      · intro asleep
        cases phase : (s.devs ⟨i, bound⟩).phase <;> simp [phase, Phase.signal] at asleep
      · intro inside
        refine ok.attached fun outside => inside ?_
        simp [outside, Phase.signal]
      · exact (ok.due (by simp [Thread.due]) attached).2
      · simp [Thread.waited]
    · have ok := device e
      rw [here] at ok
      have apart : (e : ℕ) ≠ i := fun same => other (Fin.ext same)
      have same : Thread.due (.release (i + 1) fsh event) e = Thread.due (.release i fsh event) e := by
        simp only [Thread.due, decide_eq_decide]
        omega
      exact ⟨ok.working, ok.asleep, ok.attached, ok.times, by rw [same]; exact ok.due,
        by rw [same]; exact ok.count, by simp [Thread.waited], by simp⟩
  · obtain ⟨events, all⟩ := counts
    exact ⟨events, fun full e => (s.releaseDevice_same _ e).fsh.trans (all full e)⟩
  · intro stop e
    exact (s.releaseDevice_same _ e).fsh.trans (stopped stop e)

/-- The end of a round: the loop test, or the break when all devices were found detached. -/
private theorem Inv.round (inv : Inv s) {i fsh event : ℕ} (last : ¬i < n)
    (here : s.thread = .release i fsh event) :
    Inv { s with thread := if fsh = event then .exited else .top } := by
  have counts := inv.counts
  rw [here] at counts
  obtain ⟨events, all⟩ := counts
  have passed : ∀ (thread : Thread), (∀ d, thread.due d = false) → (∀ d, thread.waited d = false) →
      (∀ d f e, thread ≠ .asleep d f e) → ∀ e : Fin n, (s.devs e).Ok s.time s.thread e →
      (s.devs e).Ok s.time thread e := by
    intro thread notDue notWaited awake e ok
    rw [here] at ok
    have past : Thread.due (.release i fsh event) e = false := by
      simp only [Thread.due, decide_eq_false_iff_not]
      omega
    exact ⟨ok.working, ok.asleep, ok.attached, ok.times, by simp [notDue], fun _ => ok.count past,
      by simp [notWaited], fun f e slept => absurd slept (awake _ f e)⟩
  split_ifs with full
  · exact inv.setThread (passed .exited (fun _ => rfl) (fun _ => rfl) nofun) (all (full.trans events))
  · exact inv.setThread (passed .top (fun _ => rfl) (fun _ => rfl) nofun) trivial

private theorem Inv.advance (inv : Inv s) (taken : s.advance = some t) : Inv t := by
  cases here : s.thread with
  | top =>
    simp only [State.advance, here, Option.some.injEq] at taken
    subst taken
    split_ifs with stop
    · exact inv.setThread (fun e ok => ⟨ok.working, ok.asleep, ok.attached, ok.times, by simp [Thread.due],
        by rw [here] at ok; exact ok.count, by simp [Thread.waited], by simp⟩) (inv.stopped stop)
    · exact inv.setThread (fun e ok => ⟨ok.working, ok.asleep, ok.attached, ok.times, by simp [Thread.due],
        by rw [here] at ok; exact ok.count, by simp [Thread.waited], by simp⟩)
        ⟨rfl, n.zero_le, le_rfl, by simp⟩
  | wait i fsh event =>
    simp only [State.advance, here] at taken
    split at taken
    · rename_i bound
      split at taken
      · rename_i idle
        cases taken
        exact inv.sleep bound here (by simpa using idle)
      · rename_i raised
        cases taken
        exact inv.pass bound here fun attached => by simpa [attached] using raised
    · cases taken
      exact inv.tick ‹_› here
  | asleep i fsh event => simp [State.advance, here] at taken
  | release i fsh event =>
    simp only [State.advance, here] at taken
    split at taken
    · cases taken
      exact inv.release ‹_› here
    · cases taken
      exact inv.round ‹_› here
  | exited => simp [State.advance, here] at taken

theorem Inv.step (inv : Inv s) (taken : Step s t) : Inv t := by
  cases taken with
  | advance taken => exact inv.advance taken
  | wakeTimer taken => exact inv.wakeTimer taken
  | nextSlot attached taken => exact inv.nextSlot attached taken
  | wake taken => exact inv.wake taken
  | detach attached outside => exact inv.detach outside
  | stop all => exact inv.stop all

/-- The steps that no device takes by its own choice. -/
inductive Clock (s : State n) : State n → Prop
  | advance {t : State n} (taken : s.advance = some t) : Clock s t
  | wakeTimer {t : State n} (taken : s.wakeTimer = some t) : Clock s t
  | wake {t : State n} {d : Fin n} (taken : s.wake d = some t) : Clock s t

theorem Clock.step (moved : Clock s t) : Step s t := by
  cases moved with
  | advance taken => exact .advance taken
  | wakeTimer taken => exact .wakeTimer taken
  | wake taken => exact .wake taken

private theorem State.advance_same (taken : s.advance = some t) (e : Fin n) : (s.devs e).Same (t.devs e) := by
  simp only [State.advance] at taken
  split at taken
  · cases taken
    exact .refl _
  · split at taken
    · split at taken <;> cases taken <;> exact .refl _
    · cases taken
      exact .refl _
  · cases taken
  · split at taken
    · cases taken
      exact s.releaseDevice_same _ e
    · cases taken
      exact .refl _
  · cases taken

theorem Clock.same (moved : Clock s t) (e : Fin n) : (s.devs e).Same (t.devs e) := by
  cases moved with
  | advance taken => exact State.advance_same taken e
  | wakeTimer taken =>
    simp only [State.wakeTimer] at taken
    split at taken <;> cases taken
    exact .refl _
  | @wake d taken =>
    simp only [State.wake] at taken
    split_ifs at taken with asleep
    cases taken
    have same : (s.devs d).Same { s.devs d with phase := .entered } := ⟨rfl, by simp [asleep], rfl⟩
    exact State.setDev_same same e

/-- The time goes up by one, in a step of the timer thread that finds all attached devices waiting. -/
theorem Clock.time (inv : Inv s) (moved : Clock s t) (ticked : t.time ≠ s.time) :
    t.time = s.time + 1 ∧ ∀ e, (s.devs e).fsh = false → (s.devs e).phase ≠ .working := by
  cases moved with
  | advance taken =>
    simp only [State.advance] at taken
    split at taken
    · cases taken
      exact absurd rfl ticked
    · rename_i i fsh event here
      split at taken
      · split at taken <;> cases taken <;> exact absurd rfl ticked
      · rename_i last
        cases taken
        refine ⟨rfl, fun e attached working => ?_⟩
        have ok := inv.device e
        have counts := inv.counts
        rw [here] at ok counts
        have passed : (e : ℕ) < i := lt_of_lt_of_le e.isLt (Nat.le_of_not_lt last)
        have raised := ok.waited (decide_eq_true passed) attached
        rw [ok.working working attached] at raised
        cases raised
    · cases taken
    · split at taken <;> cases taken <;> exact absurd rfl ticked
    · cases taken
  | wakeTimer taken =>
    simp only [State.wakeTimer] at taken
    split at taken <;> cases taken
    exact absurd rfl ticked
  | wake taken =>
    simp only [State.wake] at taken
    split_ifs at taken
    cases taken
    exact absurd rfl ticked

end SimpleOS.Model.Timer
