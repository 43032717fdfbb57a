import SimpleOS.Proofs.Places

/-! # The running list

`get_proc` puts a process on the running list and `put_proc` takes it off, but a process that finishes
stays on it after it is freed, and a full list leaves a dispatched process out. Without these two steps
the list is exact, and each of them makes it inexact at once.
-/

namespace SimpleOS.Model.Os

open Lib

variable {c N : ℕ} {cfg : Config N} {env : Env} {s t : Os c N} {i : Fin c} {label : Label c} {p : Fin N}

/-- The running list has every held process once and nothing else. -/
structure Exact (s : Os c N) : Prop where
  once : ∀ i p, (s.cpus i).loc.proc = some p → s.sched.runningList.count p = 1
  held : ∀ p ∈ s.sched.runningList, ∃ i, (s.cpus i).loc.proc = some p

/-- The step frees a finished process, or takes a process while the running list is full. -/
def Spoils (s : Os c N) : Label c → Prop
  | .cpu i => (∃ p, (s.cpus i).loc = .top (some p) ∧ s.Finished p) ∨
      (((s.cpus i).loc = .top none ∨ (s.cpus i).loc = .fetch) ∧
        (∃ level, s.sched.mlqReadyQueue level ≠ []) ∧ maxQueueSize ≤ s.sched.runningList.length)
  | _ => False

instance (s : Os c N) : (label : Label c) → Decidable (s.Spoils label)
  | .cpu i => inferInstanceAs (Decidable ((∃ p, (s.cpus i).loc = .top (some p) ∧ s.Finished p) ∨
      (((s.cpus i).loc = .top none ∨ (s.cpus i).loc = .fetch) ∧
        (∃ level, s.sched.mlqReadyQueue level ≠ []) ∧ maxQueueSize ≤ s.sched.runningList.length)))
  | .timer => inferInstanceAs (Decidable False)
  | .timerWake => inferInstanceAs (Decidable False)
  | .cpuWake _ => inferInstanceAs (Decidable False)
  | .loader => inferInstanceAs (Decidable False)
  | .loaderWake => inferInstanceAs (Decidable False)
  | .stop => inferInstanceAs (Decidable False)

/-- The running list counts the CPUs that hold each process. -/
def Counted (s : Os c N) : Prop := ∀ p, s.sched.runningList.count p = s.held p

private theorem exact_iff_counted (once : ∀ p, s.held p ≤ 1) : Exact s ↔ Counted s := by
  constructor
  · intro exact p
    by_cases listed : p ∈ s.sched.runningList
    · obtain ⟨i, here⟩ := exact.held p listed
      have one := one_le_held here
      have count := exact.once i p here
      have bound := once p
      omega
    · rw [List.count_eq_zero.mpr listed, eq_comm, held_eq_zero_iff]
      intro i here
      have count := exact.once i p here
      rw [List.count_eq_zero.mpr listed] at count
      cases count
  · intro counted
    refine ⟨fun i p here => ?_, fun p listed => ?_⟩
    · have one := one_le_held here
      have bound := once p
      rw [counted p]
      omega
    · have some : s.held p ≠ 0 := by
        rw [← counted p]
        exact (List.count_pos_iff.mpr listed).ne'
      simpa [held_eq_zero_iff] using some

theorem Counted.congr (counted : Counted s) (list : t.sched.runningList = s.sched.runningList)
    (held : t.held = s.held) : Counted t := by
  intro p
  rw [list, held]
  exact counted p

/-- A taken process is counted when the list has room for it. -/
private theorem Counted.take_iff (counted : Counted s) (list : t.sched.runningList = enqueue s.sched.runningList p)
    (held : ∀ q, t.held q = s.held q + if p = q then 1 else 0) :
    Counted t ↔ ¬maxQueueSize ≤ s.sched.runningList.length := by
  constructor
  · intro counted' full
    have before := counted p
    have after := counted' p
    rw [list, enqueue, if_pos full, held, if_pos rfl] at after
    omega
  · intro room q
    rw [list, enqueue, if_neg room, held, List.count_append, counted q, List.count_singleton]
    simp only [beq_iff_eq]

/-- A process put back is taken off the list once. -/
private theorem Counted.put (counted : Counted s) (list : t.sched.runningList = s.sched.runningList.erase p)
    (held : ∀ q, t.held q + (if p = q then 1 else 0) = s.held q) : Counted t := by
  intro q
  have before := counted q
  have after := held q
  rw [list, List.count_erase]
  simp only [beq_iff_eq]
  omega

/-- A freed process stays on the list. -/
private theorem Counted.retire (counted : Counted s) (list : t.sched.runningList = s.sched.runningList)
    (held : ∀ q, t.held q + (if p = q then 1 else 0) = s.held q) : ¬Counted t := by
  intro counted'
  have before := counted p
  have after := counted' p
  have lost := held p
  rw [list] at after
  rw [if_pos rfl] at lost
  omega

/-- A step of a CPU keeps the list counted exactly when it does not spoil it. -/
private theorem CpuMove.counted_iff (counted : Counted s) (moved : CpuMove cfg env s i t) :
    Counted t ↔ ¬s.Spoils (.cpu i) := by
  have stays : ∀ (t : Os c N) (cpu : Cpu (Fin N)), t.cpus = Function.update s.cpus i cpu →
      cpu.loc.proc = (s.cpus i).loc.proc → t.sched.runningList = s.sched.runningList →
      ¬s.Spoils (.cpu i) → (Counted t ↔ ¬s.Spoils (.cpu i)) := by
    intro t cpu changed same list kept
    exact iff_of_true (counted.congr list (held_same changed same)) kept
  cases moved with
  | @take p sched empty got =>
    obtain ⟨level, rest, ready, _, list⟩ := Sched.getProc_some got
    have before : (s.cpus i).loc.proc = none := by obtain here | here := empty <;> rw [here] <;> rfl
    have some : ∃ level, s.sched.mlqReadyQueue level ≠ [] := ⟨level, by rw [ready]; nofun⟩
    rw [counted.take_iff list (held_gain rfl before rfl), not_iff_not]
    constructor
    · exact fun full => .inr ⟨empty, some, full⟩
    · rintro (⟨q, here, _⟩ | ⟨_, _, full⟩)
      · rw [here] at before
        cases before
      · exact full
  | idle here got =>
    obtain ⟨empty, _, list⟩ := Sched.getProc_none got
    exact stays _ _ rfl (by rw [here]; rfl) list (by simp [Spoils, here, empty])
  | miss here got =>
    obtain ⟨empty, _, list⟩ := Sched.getProc_none got
    exact stays _ _ rfl (by rw [here]; rfl) list (by simp [Spoils, here, empty])
  | @retire p here finished =>
    refine iff_of_false (counted.retire rfl (held_lose rfl (by rw [here]; rfl) rfl)) ?_
    exact not_not.mpr (.inl ⟨p, here, finished⟩)
  | @put p here unfinished spent =>
    refine iff_of_true (counted.put (p := p) ?_ (held_lose rfl (by rw [here]; rfl) rfl))
      (by simp [Spoils, here, unfinished])
    rw [setCpu_sched, Sched.putProc_runningList]
  | start here outside => exact iff_of_true counted (by simp [Spoils, here])
  | sleep here inside raised => exact iff_of_true counted (by simp [Spoils, here])
  | keep here unfinished left =>
    exact stays _ _ rfl (by rw [here]; rfl) rfl (by simp [Spoils, here, unfinished])
  | leave here done => exact stays _ _ rfl (by rw [here]; rfl) rfl (by simp [Spoils, here])
  | skip here pending => exact stays _ _ rfl (by rw [here]; rfl) rfl (by simp [Spoils, here])
  | dispatch here => exact stays _ _ rfl (by rw [here]; rfl) rfl (by simp [Spoils, here])
  | run here ran => exact stays _ _ rfl (by rw [here]; rfl) rfl (by simp [Spoils, here])
  | wakeUp here inside released => exact stays _ _ rfl (by rw [here]; rfl) rfl (by simp [Spoils, here])
  | detach here => exact stays _ _ rfl (by rw [here]; rfl) rfl (by simp [Spoils, here])

private theorem Move.counted_iff (counted : Counted s) (moved : Move cfg env s label t) :
    Counted t ↔ ¬s.Spoils label := by
  cases moved with
  | clock moved quiet =>
    refine iff_of_true counted ?_
    cases label with
    | cpu i => exact absurd rfl (quiet i)
    | _ => exact id
  | cpu moved => exact moved.counted_iff counted
  | loader moved =>
    refine iff_of_true ?_ id
    cases moved with
    | add here next => exact counted.congr Sched.addProc_runningList rfl
    | _ => exact counted
  | stop stopped finished => exact iff_of_true counted id

private theorem Reachable.held_le (reached : Reachable cfg env s) (p : Fin N) : s.held p ≤ 1 :=
  (Nat.le_add_left _ _).trans (reached.accounted p).once

/-- On an exact list the lookup by pid finds the process that is held. -/
private theorem Exact.findPid (exact : Exact s) (loaded : ∀ p, Loaded cfg s p) (few : N < 2 ^ 31)
    (here : (s.cpus i).loc.proc = some p) :
    s.mem.findPid s.sched.runningList (s.mem.procs p).pid = some p := by
  have listed : p ∈ s.sched.runningList :=
    List.count_pos_iff.mp (by rw [exact.once i p here]; exact Nat.one_pos)
  have distinct : ∀ q, (s.mem.procs q).pid = (s.mem.procs p).pid → q = p := by
    intro q same
    rw [(loaded q).pid, (loaded p).pid] at same
    have numbers := congrArg BitVec.toNat same
    rw [BitVec.toNat_ofNat, BitVec.toNat_ofNat] at numbers
    have small := q.isLt
    have small' := p.isLt
    exact Fin.ext (by omega)
  cases found : s.mem.findPid s.sched.runningList (s.mem.procs p).pid with
  | none =>
    have missed := List.find?_eq_none.mp found p listed
    simp at missed
  | some q =>
    have same := List.find?_some found
    rw [distinct q (of_decide_eq_true same)]

/-- As long as no process is freed and none is taken while the list is full, the running list is exact,
the lookup of a caller by its pid finds it, and no process on the list has been freed. The next step keeps
it so exactly when it is not one of these two. -/
theorem running_list_exact {labels : List (Label c)} (few : N < 2 ^ 31)
    (run : Run (guarded (fun s label => ¬s.Spoils label) (Step cfg env)) (init cfg) labels s) :
    Exact s ∧
    (∀ i p, (s.cpus i).loc.proc = some p →
      s.mem.findPid s.sched.runningList (s.mem.procs p).pid = some p) ∧
    (∀ p ∈ s.sched.runningList, s.freed p = false) ∧
    ∀ label t, Step cfg env s label t → (Exact t ↔ ¬s.Spoils label) := by
  have reached : Reachable cfg env s := ⟨labels, run.of_guarded⟩
  have counted : Counted s := by
    induction run with
    | start => exact fun p => (held_init cfg p).symm
    | next earlier taken ih =>
      exact ((Step.move taken.2).counted_iff (ih ⟨_, earlier.of_guarded⟩)).mpr taken.1
  have exact := (exact_iff_counted reached.held_le).mpr counted
  refine ⟨exact, fun i p here => exact.findPid reached.loaded few here, fun p listed => ?_, ?_⟩
  · obtain ⟨i, here⟩ := exact.held p listed
    apply Bool.eq_false_iff.mpr
    intro freed
    have none := ((reached.accounted p).freed freed).1
    have one := one_le_places here
    omega
  · intro label t taken
    rw [exact_iff_counted (reached.next taken).held_le]
    exact (Step.move taken).counted_iff counted

/-- The process is on the running list while it runs. -/
theorem running_list_exact_after_take :
    let cfg := Config.atOnce 16 (fun _ : Fin 1 => [⟨.calc, 0, 0, 0, 0⟩]) 7
    let env : Env := ⟨.head, fun _ => 0⟩
    ∃ s : Os 1 1, Run (guarded (fun s label => ¬s.Spoils label) (Step cfg env)) (init cfg)
        [.loader, .loader, .cpu 0] s ∧
      (s.sched.runningList, (s.cpus 0).loc) = ([0], .recheck (some 0)) ∧ Exact s ∧
      s.mem.findPid s.sched.runningList (s.mem.procs 0).pid = some 0 := by
  intro cfg env
  have computed : ([.loader, .loader, .cpu 0].foldlM (fun (now : Os 1 1) label =>
      if ¬now.Spoils label then now.step cfg env label else none) (init cfg)).map
      (fun s => (s.sched.runningList, (s.cpus 0).loc)) = some ([0], .recheck (some 0)) := by decide +kernel
  obtain ⟨s, reached, values⟩ := Option.map_eq_some_iff.mp computed
  have run := Run.of_guarded_foldlM reached
  obtain ⟨exact, finds, _⟩ := running_list_exact (by decide) run
  have here : (s.cpus 0).loc.proc = some 0 := by rw [(Prod.mk.inj values).2]; rfl
  exact ⟨s, run, values, exact, finds 0 0 here⟩

/-- The process has finished and is freed, and it is still on the running list. -/
theorem running_list_keeps_freed :
    let cfg := Config.atOnce 16 (fun _ : Fin 1 => [⟨.calc, 0, 0, 0, 0⟩]) 7
    let env : Env := ⟨.head, fun _ => 0⟩
    ∃ s : Os 1 1, Reachable cfg env s ∧ s.freed 0 = true ∧ s.sched.runningList = [0] ∧ ¬Exact s := by
  intro cfg env
  have computed : (exec cfg env [.loader, .loader, .cpu 0, .cpu 0, .cpu 0, .loader, .cpu 0, .timer, .timer,
      .timer, .timer, .timer, .timer, .cpu 0, .cpu 0]).map (fun s : Os 1 1 =>
        (s.freed 0, s.sched.runningList, (s.cpus 0).loc)) = some (true, [0], .fetch) := by decide +kernel
  obtain ⟨s, reached, values⟩ := Option.map_eq_some_iff.mp computed
  obtain ⟨freed, rest⟩ := Prod.mk.inj values
  obtain ⟨list, here⟩ := Prod.mk.inj rest
  refine ⟨s, .of_exec reached, freed, list, fun exact => ?_⟩
  obtain ⟨i, held⟩ := exact.held 0 (by rw [list]; exact List.mem_singleton_self 0)
  rw [Subsingleton.elim i 0, here] at held
  cases held

end SimpleOS.Model.Os
