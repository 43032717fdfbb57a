import SimpleOS.Proofs.Headers
import SimpleOS.Proofs.Sched
import SimpleOS.Proofs.Threads

/-! # The places of a process

A process is somewhere: in a ready queue, or held by a CPU. Counting its places makes the argument about
all CPUs and queues at once: a step keeps the count of every process, except where the loader adds one,
a CPU retires one, or a call is refused.
-/

namespace SimpleOS.Model.Os

open Lib

variable {c N : ℕ} {cfg : Config N} {env : Env} {s t : Os c N} {i : Fin c} {label : Label c} {p q : Fin N}

/-- 1 if the CPU holds the process. -/
def holds (p : Fin N) (cpu : Cpu (Fin N)) : ℕ := if cpu.loc.proc = some p then 1 else 0

theorem holds_pos {cpu : Cpu (Fin N)} : 0 < holds p cpu ↔ cpu.loc.proc = some p := by
  rw [holds]
  split <;> simp [*]

/-- How many CPUs hold a process. -/
def held (s : Os c N) (p : Fin N) : ℕ := tally (holds p) s.cpus

/-- How many places a process has. -/
def places (s : Os c N) (p : Fin N) : ℕ := s.sched.queued p + s.held p

theorem held_init (cfg : Config N) (p : Fin N) : (init cfg : Os c N).held p = 0 :=
  tally_eq_zero_iff.mpr fun _ => rfl

private theorem places_init (cfg : Config N) (p : Fin N) : (init cfg : Os c N).places p = 0 :=
  Nat.add_eq_zero_iff.mpr ⟨Sched.queued_init p, held_init cfg p⟩

theorem one_le_held (here : (s.cpus i).loc.proc = some p) : 1 ≤ s.held p := by
  have own := le_tally (holds p) s.cpus i
  rw [holds, if_pos here] at own
  exact own

theorem held_eq_zero_iff : s.held p = 0 ↔ ∀ i, (s.cpus i).loc.proc ≠ some p := by
  simp [held, tally_eq_zero_iff, holds]

/-- A CPU changes the process it holds. -/
private theorem held_update {cpu : Cpu (Fin N)} {before after : Option (Fin N)}
    (changed : t.cpus = Function.update s.cpus i cpu) (old : (s.cpus i).loc.proc = before)
    (new : cpu.loc.proc = after) (q : Fin N) :
    t.held q + (if before = some q then 1 else 0) = s.held q + if after = some q then 1 else 0 := by
  have balance := tally_update (holds q) s.cpus i cpu
  rwa [← changed, holds, holds, old, new] at balance

theorem held_gain {cpu : Cpu (Fin N)} (changed : t.cpus = Function.update s.cpus i cpu)
    (old : (s.cpus i).loc.proc = none) (new : cpu.loc.proc = some p) (q : Fin N) :
    t.held q = s.held q + if p = q then 1 else 0 := by
  simpa using held_update changed old new q

theorem held_lose {cpu : Cpu (Fin N)} (changed : t.cpus = Function.update s.cpus i cpu)
    (old : (s.cpus i).loc.proc = some p) (new : cpu.loc.proc = none) (q : Fin N) :
    t.held q + (if p = q then 1 else 0) = s.held q := by
  simpa using held_update changed old new q

/-- A CPU keeps its process. -/
theorem held_same {cpu : Cpu (Fin N)} (changed : t.cpus = Function.update s.cpus i cpu)
    (same : cpu.loc.proc = (s.cpus i).loc.proc) : t.held = s.held := by
  funext q
  have balance := held_update changed rfl same q
  omega

/-- A refused `put_proc` takes a place away. -/
theorem places_put_refused (here : (s.cpus i).loc = .top (some p))
    (full : ¬s.sched.Accepts (s.mem.procs p).prio)
    (sched : t.sched = s.sched.putProc (s.mem.procs p).prio p)
    (cpus : t.cpus = Function.update s.cpus i { s.cpus i with loc := .fetch }) (q : Fin N) :
    t.places q + (if p = q then 1 else 0) = s.places q := by
  have lost := held_lose (p := p) cpus (by rw [here]; rfl) rfl q
  rw [places, places, ← lost, sched, Sched.putProc_queued, Sched.addProc_refused full]
  omega

/-- A step of a CPU keeps all processes in place, retires one, or drops one that `put_proc` refuses. -/
theorem CpuMove.places_cases (moved : CpuMove cfg env s i t) :
    (t.freed = s.freed ∧ t.places = s.places) ∨
    (∃ p, (s.cpus i).loc = .top (some p) ∧ s.Finished p ∧ t.freed = Function.update s.freed p true ∧
      ∀ q, t.places q + (if p = q then 1 else 0) = s.places q) ∨
    ∃ p, (s.cpus i).loc = .top (some p) ∧ ¬s.Finished p ∧ (s.cpus i).timeLeft = 0 ∧
      ¬s.sched.Accepts (s.mem.procs p).prio ∧ t.freed = s.freed ∧
      ∀ q, t.places q + (if p = q then 1 else 0) = s.places q := by
  have stays : ∀ (t : Os c N) (cpu : Cpu (Fin N)), t.cpus = Function.update s.cpus i cpu →
      cpu.loc.proc = (s.cpus i).loc.proc → t.sched.mlqReadyQueue = s.sched.mlqReadyQueue →
      t.places = s.places := by
    intro t cpu changed same queues
    funext q
    rw [places, places, held_same changed same, Sched.queued_congr queues]
  cases moved with
  | @take p sched empty got =>
    have before : (s.cpus i).loc.proc = none := by obtain here | here := empty <;> rw [here] <;> rfl
    refine .inl ⟨rfl, funext fun q => ?_⟩
    have queues := Sched.getProc_queued (q := q) got
    have cpus := held_gain (s := s) (t := { s with sched }.setCpu i { s.cpus i with loc := .recheck (some p) })
      rfl before rfl q
    rw [places, cpus, places, ← queues]
    simp only [setCpu_sched]
    omega
  | idle here got => exact .inl ⟨rfl, stays _ _ rfl (by rw [here]; rfl) (Sched.getProc_none got).2.1⟩
  | miss here got => exact .inl ⟨rfl, stays _ _ rfl (by rw [here]; rfl) (Sched.getProc_none got).2.1⟩
  | @retire p here finished =>
    refine .inr (.inl ⟨p, here, finished, rfl, fun q => ?_⟩)
    have cpus := held_lose (s := s) (t := { s with freed := Function.update s.freed p true }.setCpu i
      { s.cpus i with loc := .fetch, timeLeft := 0 }) rfl (by rw [here]; rfl) rfl q
    rw [places, places, ← cpus]
    exact Nat.add_assoc _ _ _
  | @put p here unfinished spent =>
    by_cases accepted : s.sched.Accepts (s.mem.procs p).prio
    · refine .inl ⟨rfl, funext fun q => ?_⟩
      have queues := Sched.addProc_queued (p := p) (q := q) accepted
      have cpus := held_lose (s := s) (t := { s with sched := s.sched.putProc (s.mem.procs p).prio p }.setCpu i
        { s.cpus i with loc := .fetch }) rfl (by rw [here]; rfl) rfl q
      rw [places, places, ← cpus, setCpu_sched, Sched.putProc_queued, queues]
      omega
    · exact .inr (.inr ⟨p, here, unfinished, spent, accepted, rfl, places_put_refused here accepted rfl rfl⟩)
  | keep here unfinished left => exact .inl ⟨rfl, stays _ _ rfl (by rw [here]; rfl) rfl⟩
  | leave here done => exact .inl ⟨rfl, stays _ _ rfl (by rw [here]; rfl) rfl⟩
  | skip here pending => exact .inl ⟨rfl, stays _ _ rfl (by rw [here]; rfl) rfl⟩
  | dispatch here => exact .inl ⟨rfl, stays _ _ rfl (by rw [here]; rfl) rfl⟩
  | run here ran => exact .inl ⟨rfl, stays _ _ rfl (by rw [here]; rfl) rfl⟩
  | start here outside => exact .inl ⟨rfl, rfl⟩
  | sleep here inside raised => exact .inl ⟨rfl, rfl⟩
  | wakeUp here inside released => exact .inl ⟨rfl, stays _ _ rfl (by rw [here]; rfl) rfl⟩
  | detach here => exact .inl ⟨rfl, stays _ _ rfl (by rw [here]; rfl) rfl⟩

/-- A step of the loader keeps all processes in place, or adds the next one. -/
theorem LoaderMove.places_cases (moved : LoaderMove cfg s t) : t.freed = s.freed ∧
    ((t.loader.i = s.loader.i ∧ t.places = s.places) ∨
    ∃ p : Fin N, p = s.loader.i ∧ s.loader.loc = .adding ∧ t.loader.i = s.loader.i + 1 ∧
      ((s.sched.Accepts (s.mem.procs p).prio ∧ ∀ q, t.places q = s.places q + if p = q then 1 else 0) ∨
      (¬s.sched.Accepts (s.mem.procs p).prio ∧ t.places = s.places))) := by
  cases moved with
  | @add p here next =>
    refine ⟨rfl, .inr ⟨p, next, here, rfl, ?_⟩⟩
    by_cases accepted : s.sched.Accepts (s.mem.procs p).prio
    · refine .inl ⟨accepted, fun q => ?_⟩
      have queues := Sched.addProc_queued (p := p) (q := q) accepted
      rw [places, places]
      change (s.sched.addProc _ p).queued q + s.held q = _
      omega
    · refine .inr ⟨accepted, funext fun q => ?_⟩
      rw [places, places]
      change (s.sched.addProc _ p).queued q + s.held q = _
      rw [Sched.addProc_refused accepted]
  | _ => exact ⟨rfl, .inl ⟨rfl, rfl⟩⟩

/-- What `load` has set, and the instructions executed so far. -/
structure Loaded (cfg : Config N) (s : Os c N) (p : Fin N) : Prop where
  pid : (s.mem.procs p).pid = BitVec.ofNat 32 (p + 1)
  text : (s.mem.procs p).text = cfg.text p
  prio : (s.mem.procs p).prio = cfg.level p
  pc_le : (s.mem.procs p).pc ≤ (cfg.text p).length
  executed : s.executed p = (cfg.text p).take (s.mem.procs p).pc

theorem Loaded.init (cfg : Config N) (p : Fin N) : Loaded cfg (init cfg : Os c N) p :=
  ⟨rfl, rfl, rfl, Nat.zero_le _, rfl⟩

/-- `run` executes the next instruction of its process, if there is one. -/
theorem Loaded.run (loaded : Loaded cfg s q) {mem : Machine (Fin N)} {status : Int}
    (ran : s.mem.run env s.sched.runningList p = .ok (mem, status))
    (recorded : t.executed = Function.update s.executed p
      (s.executed p ++ ((s.mem.procs p).text[(s.mem.procs p).pc]?).toList))
    (stored : t.mem = mem) : Loaded cfg t q := by
  obtain ⟨ended, rfl⟩ | ⟨ins, next, headers⟩ := Machine.run_header ran
  · have same : t.executed q = s.executed q := by
      rw [recorded, ended, Option.toList_none, List.append_nil, Function.update_eq_self]
    exact ⟨stored ▸ loaded.pid, stored ▸ loaded.text, stored ▸ loaded.prio, stored ▸ loaded.pc_le,
      by rw [same, stored]; exact loaded.executed⟩
  · have header := headers q
    rw [← stored] at header
    split at header
    · rename_i here
      subst here
      obtain ⟨pid, text, prio, pc⟩ := Header.mk.inj header
      have inside : (s.mem.procs q).pc < (cfg.text q).length := by
        rw [loaded.text] at next
        exact (List.getElem?_eq_some_iff.mp next).1
      refine ⟨pid.trans loaded.pid, text.trans loaded.text, prio.trans loaded.prio, by omega, ?_⟩
      rw [recorded, Function.update_self, next, loaded.executed, pc, List.take_add_one, ← loaded.text, next]
    · rename_i other
      obtain ⟨pid, text, prio, pc⟩ := Header.mk.inj header
      refine ⟨pid.trans loaded.pid, text.trans loaded.text, prio.trans loaded.prio, ?_, ?_⟩
      · rw [pc]
        exact loaded.pc_le
      · rw [recorded, Function.update_of_ne other, pc]
        exact loaded.executed

theorem Reachable.loaded (reached : Reachable cfg env s) (p : Fin N) : Loaded cfg s p := by
  apply Reachable.keeps (Loaded cfg · p) reached (.init cfg p)
  intro now label after _ loaded moved
  have same : ∀ after : Os c N, after.mem = now.mem → after.executed = now.executed → Loaded cfg after p := by
    intro after mem executed
    refine ⟨mem ▸ loaded.pid, mem ▸ loaded.text, mem ▸ loaded.prio, mem ▸ loaded.pc_le, ?_⟩
    rw [mem, executed]
    exact loaded.executed
  cases moved with
  | clock moved => exact same _ rfl rfl
  | cpu moved =>
    cases moved with
    | run here ran => exact loaded.run ran rfl rfl
    | _ => exact same _ rfl rfl
  | loader moved => cases moved <;> exact same _ rfl rfl
  | stop stopped finished => exact same _ rfl rfl

/-- A finished process stays finished. -/
theorem CpuMove.finished (moved : CpuMove cfg env s i t) (finished : s.Finished p) : t.Finished p := by
  cases moved with
  | @run q mem status here ran =>
    obtain ⟨_, rfl⟩ | ⟨ins, next, headers⟩ := Machine.run_header ran
    · exact finished
    · have header := headers p
      split at header
      · rename_i same
        subst same
        have inside := (List.getElem?_eq_some_iff.mp next).1
        rw [Finished] at finished
        omega
      · obtain ⟨_, text, _, pc⟩ := Header.mk.inj header
        exact pc.trans (finished.trans (congrArg List.length text).symm)
  | _ => exact finished

private theorem LoaderMove.finished (moved : LoaderMove cfg s t) (finished : s.Finished p) : t.Finished p := by
  cases moved <;> exact finished

/-- A process has at most one place, and none before it is added and after it is freed. -/
structure Accounted (s : Os c N) (p : Fin N) : Prop where
  once : s.places p ≤ 1
  unborn : s.loader.i ≤ p → s.places p = 0 ∧ s.freed p = false
  freed : s.freed p = true → s.places p = 0 ∧ s.Finished p

theorem Accounted.init (cfg : Config N) (p : Fin N) : Accounted (init cfg : Os c N) p where
  once := by rw [places_init]; exact Nat.zero_le 1
  unborn _ := ⟨places_init cfg p, rfl⟩
  freed := nofun

/-- Nobody adds or frees the process, and it gains no place. -/
private theorem Accounted.go (accounted : Accounted s p) (kept : s.Finished p → t.Finished p)
    (places : t.places p ≤ s.places p) (freed : t.freed p = s.freed p) (added : s.loader.i ≤ t.loader.i) :
    Accounted t p where
  once := places.trans accounted.once
  unborn later := by
    obtain ⟨none, alive⟩ := accounted.unborn (added.trans later)
    exact ⟨by omega, freed.trans alive⟩
  freed ended := by
    obtain ⟨none, finished⟩ := accounted.freed (freed.symm.trans ended)
    exact ⟨by omega, kept finished⟩

theorem one_le_places (here : (s.cpus i).loc.proc = some p) : 1 ≤ s.places p :=
  (one_le_held here).trans (Nat.le_add_left _ _)

theorem CpuMove.loader (moved : CpuMove cfg env s i t) : t.loader = s.loader ∧ t.done = s.done := by
  cases moved <;> exact ⟨rfl, rfl⟩

private theorem CpuMove.accounted (accounted : Accounted s p) (moved : CpuMove cfg env s i t) : Accounted t p := by
  have added : s.loader.i ≤ t.loader.i := by rw [moved.loader.1]
  obtain ⟨freed, places⟩ | ⟨q, here, finished, freed, places⟩ | ⟨q, _, _, _, _, freed, places⟩ :=
    moved.places_cases
  · exact accounted.go moved.finished (by rw [places]) (by rw [freed]) added
  · have count := places p
    split at count
    · rename_i same
      subst same
      have once := accounted.once
      have one : 1 ≤ s.places q := one_le_places (i := i) (by rw [here]; rfl)
      refine ⟨by omega, fun later => ?_, fun _ => ⟨by omega, moved.finished finished⟩⟩
      obtain ⟨none, _⟩ := accounted.unborn (added.trans later)
      omega
    · rename_i other
      refine accounted.go moved.finished (by omega) ?_ added
      rw [freed, Function.update_of_ne fun same => other same.symm]
  · have count := places p
    exact accounted.go moved.finished (by omega) (by rw [freed]) added

private theorem LoaderMove.accounted (accounted : Accounted s p) (moved : LoaderMove cfg s t) : Accounted t p := by
  obtain ⟨freed, ⟨next, places⟩ | ⟨q, next, _, later, ⟨_, places⟩ | ⟨_, places⟩⟩⟩ := moved.places_cases
  · exact accounted.go moved.finished (by rw [places]) (by rw [freed]) (by omega)
  · have count := places p
    split at count
    · rename_i same
      subst same
      obtain ⟨none, alive⟩ := accounted.unborn next.ge
      refine ⟨by omega, by omega, fun ended => ?_⟩
      rw [freed, alive] at ended
      cases ended
    · exact accounted.go moved.finished (by omega) (by rw [freed]) (by omega)
  · exact accounted.go moved.finished (by rw [places]) (by rw [freed]) (by omega)

theorem Reachable.accounted (reached : Reachable cfg env s) (p : Fin N) : Accounted s p := by
  apply Reachable.keeps (Accounted · p) reached (.init cfg p)
  intro now label after _ accounted moved
  cases moved with
  | clock moved => exact accounted.go id le_rfl rfl le_rfl
  | cpu moved => exact moved.accounted accounted
  | loader moved => exact moved.accounted accounted
  | stop stopped finished => exact accounted.go id le_rfl rfl le_rfl

/-- Only one CPU holds a process. -/
theorem Accounted.holder_unique (accounted : Accounted s p) {j : Fin c} (first : (s.cpus i).loc.proc = some p)
    (second : (s.cpus j).loc.proc = some p) : i = j := by
  apply not_ne_iff.mp
  intro apart
  have both := add_le_tally (holds p) s.cpus apart
  have total := accounted.once
  rw [places, held] at total
  have one := holds_pos.mpr first
  have two := holds_pos.mpr second
  omega

/-- The ready queues hold every process at its own level. -/
theorem Reachable.sorted (reached : Reachable cfg env s) : s.sched.Sorted cfg.level := by
  refine Reachable.keeps (fun s => s.sched.Sorted cfg.level) reached ?_ ?_
  · intro level p member
    cases member
  · intro now label after before sorted moved
    have level : ∀ p, (now.mem.procs p).prio = cfg.level p := fun p => (before.loaded p).prio
    cases moved with
    | cpu moved =>
      cases moved with
      | take empty got => exact sorted.getProc got
      | idle here got => exact sorted.getProc got
      | miss here got => exact sorted.getProc got
      | @put p here unfinished spent =>
        intro own q member
        rw [setCpu_sched, Sched.putProc_mlqReadyQueue, level] at member
        exact sorted.addProc p own q member
      | _ => exact sorted
    | clock moved => exact sorted
    | loader moved =>
      cases moved with
      | @add p here next =>
        intro own q member
        rw [level] at member
        exact sorted.addProc p own q member
      | _ => exact sorted
    | stop stopped finished => exact sorted

end SimpleOS.Model.Os
