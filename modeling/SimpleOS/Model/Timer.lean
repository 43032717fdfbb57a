import Mathlib.Data.List.Range
import Mathlib.Logic.Function.Basic

/-! # The timer and its devices

`timer.c`, with the lock-protected sections as atomic steps. A wait on a condition variable splits its
section in two: the thread checks its condition and goes to sleep, and it checks again after a signal
or a spurious wakeup. Devices are numbered along `dev_list`.
-/

namespace SimpleOS.Model.Timer

/-- Where the thread of a device is: outside `next_slot`, about to check `done` in it, or asleep on
`timer_cond`. -/
inductive Phase
  | working | entered | asleep
deriving DecidableEq, Repr

/-- `struct timer_id_t`, with the phase of the thread that owns it. `startTimes` records `_time` at
each call of `next_slot`. -/
structure Device where
  done : Bool
  fsh : Bool
  phase : Phase
  startTimes : List ℕ
deriving DecidableEq, Repr

/-- Where `timer_routine` is: at its loop test, waiting for or asleep on the device `i`, releasing the
device `i`, or gone. The counters are its local variables `fsh` and `event`. -/
inductive Thread
  | top
  | wait (i fsh event : ℕ)
  | asleep (i fsh event : ℕ)
  | release (i fsh event : ℕ)
  | exited
deriving DecidableEq, Repr

/-- The timer with `n` attached devices. -/
structure State (n : ℕ) where
  time : ℕ
  timerStop : Bool
  thread : Thread
  devs : Fin n → Device

/-- What `attach_event` and `start_timer` leave. -/
def State.init (n : ℕ) : State n := ⟨0, false, .top, fun _ => ⟨false, false, .working, []⟩⟩

/-- `pthread_cond_signal` on the `event_cond` of device `d`. -/
def Thread.signal (thread : Thread) (d : ℕ) : Thread :=
  match thread with
  | .asleep i fsh event => if i = d then .wait i fsh event else .asleep i fsh event
  | other => other

/-- `pthread_cond_signal` on the `timer_cond` of a device. -/
def Phase.signal : Phase → Phase
  | .asleep => .entered
  | other => other

variable {n : ℕ}

namespace State

/-- Replace device `d`. -/
def setDev (s : State n) (d : Fin n) (dev : Device) : State n :=
  { s with devs := Function.update s.devs d dev }

/-- The first section of `next_slot`. -/
def start (s : State n) (d : Fin n) : State n :=
  let dev := s.devs d
  let startTimes := dev.startTimes ++ [s.time]
  { s.setDev d { dev with done := true, phase := .entered, startTimes } with thread := s.thread.signal d }

/-- The check of `done` in the second section of `next_slot`: go to sleep, or return. -/
def look (s : State n) (d : Fin n) : State n :=
  let dev := s.devs d
  s.setDev d { dev with phase := if dev.done then .asleep else .working }

/-- The next step of a device in a call of `next_slot`; it has none while it is asleep. -/
def nextSlot (s : State n) (d : Fin n) : Option (State n) :=
  match (s.devs d).phase with
  | .working => some (s.start d)
  | .entered => some (s.look d)
  | .asleep => none

/-- A spurious wakeup of a device. -/
def wake (s : State n) (d : Fin n) : Option (State n) :=
  if (s.devs d).phase = .asleep then some (s.setDev d { s.devs d with phase := .entered }) else none

/-- `detach_event`. -/
def detach (s : State n) (d : Fin n) : State n :=
  { s.setDev d { s.devs d with fsh := true } with thread := s.thread.signal d }

/-- One section of the second loop of `timer_routine`. -/
def releaseDevice (s : State n) (d : Fin n) : State n :=
  let dev := s.devs d
  s.setDev d { dev with done := false, phase := dev.phase.signal }

/-- The next step of `timer_routine`; it has none while it is asleep or gone. -/
def advance (s : State n) : Option (State n) :=
  match s.thread with
  | .top => some { s with thread := if s.timerStop then .exited else .wait 0 0 0 }
  | .wait i fsh event =>
    if bound : i < n then
      let dev := s.devs ⟨i, bound⟩
      if !dev.done && !dev.fsh then some { s with thread := .asleep i fsh event }
      else some { s with thread := .wait (i + 1) (if dev.fsh then fsh + 1 else fsh) (event + 1) }
    else some { s with time := s.time + 1, thread := .release 0 fsh event }
  | .asleep _ _ _ => none
  | .release i fsh event =>
    if bound : i < n then some { s.releaseDevice ⟨i, bound⟩ with thread := .release (i + 1) fsh event }
    else some { s with thread := if fsh = event then .exited else .top }
  | .exited => none

/-- A spurious wakeup of the timer. -/
def wakeTimer (s : State n) : Option (State n) :=
  match s.thread with
  | .asleep i fsh event => some { s with thread := .wait i fsh event }
  | _ => none

/-- `stop_timer` sets its flag. -/
def stop (s : State n) : State n := { s with timerStop := true }

end State

/-- One step of the timer thread or of a device. A device calls `next_slot` and `detach_event` only
while it is attached, and `stop_timer` is called when all devices are detached. -/
inductive Step : State n → State n → Prop
  | advance {s t : State n} (taken : s.advance = some t) : Step s t
  | wakeTimer {s t : State n} (taken : s.wakeTimer = some t) : Step s t
  | nextSlot {s t : State n} {d : Fin n} (attached : (s.devs d).fsh = false)
      (taken : s.nextSlot d = some t) : Step s t
  | wake {s t : State n} {d : Fin n} (taken : s.wake d = some t) : Step s t
  | detach {s : State n} {d : Fin n} (attached : (s.devs d).fsh = false)
      (outside : (s.devs d).phase = .working) : Step s (s.detach d)
  | stop {s : State n} (all : ∀ d, (s.devs d).fsh = true) : Step s s.stop

end SimpleOS.Model.Timer
