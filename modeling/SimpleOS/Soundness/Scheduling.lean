import SimpleOS.Proofs.Places

/-! # No process is lost unless its level refuses it

`enqueue` leaves a full queue alone, and a priority of `MAX_PRIO` or more has no queue. Apart from such
refused calls a process has exactly one place from its `add_proc` until it is freed.
-/

namespace SimpleOS.Model.Os

open Lib

variable {c N : ℕ} {cfg : Config N} {env : Env} {s t : Os c N} {i : Fin c} {label : Label c} {p : Fin N}

/-- The step is an `add_proc` or a `put_proc` of the process that its level refuses: the priority has no
level, or the queue is full. -/
def Refuses (s : Os c N) (p : Fin N) : Label c → Prop
  | .loader => s.loader.loc = .adding ∧ p = s.loader.i ∧ ¬s.sched.Accepts (s.mem.procs p).prio
  | .cpu i => (s.cpus i).loc = .top (some p) ∧ ¬s.Finished p ∧ (s.cpus i).timeLeft = 0 ∧
      ¬s.sched.Accepts (s.mem.procs p).prio
  | _ => False

/-- A process that was added and not yet freed has a place. -/
def Present (s : Os c N) (p : Fin N) : Prop := p < s.loader.i → s.freed p = false → s.places p = 1

theorem Present.init (cfg : Config N) (p : Fin N) : Present (init cfg : Os c N) p := by
  intro added
  exact absurd added (Nat.not_lt_zero p)

private theorem CpuMove.present (present : Present s p) (accepted : ¬s.Refuses p (.cpu i))
    (moved : CpuMove cfg env s i t) : Present t p := by
  intro added alive
  rw [moved.loader.1] at added
  obtain ⟨freed, places⟩ | ⟨q, here, finished, freed, places⟩ | ⟨q, here, unfinished, spent, full, freed, places⟩ :=
    moved.places_cases
  · rw [places]
    exact present added (freed ▸ alive)
  · rw [freed, Function.update_apply] at alive
    split at alive
    · cases alive
    · rename_i other
      have count := places p
      rw [if_neg fun same => other same.symm, Nat.add_zero] at count
      exact count.trans (present added alive)
  · have other : q ≠ p := by
      rintro rfl
      exact accepted ⟨here, unfinished, spent, full⟩
    have count := places p
    rw [if_neg other, Nat.add_zero] at count
    exact count.trans (present added (freed ▸ alive))

private theorem LoaderMove.present (accounted : Accounted s p) (present : Present s p)
    (accepted : ¬s.Refuses p .loader) (moved : LoaderMove cfg s t) : Present t p := by
  intro added alive
  obtain ⟨freed, ⟨next, places⟩ | ⟨q, next, here, later, rest⟩⟩ := moved.places_cases
  · rw [places]
    exact present (next ▸ added) (freed ▸ alive)
  · by_cases same : q = p
    · subst same
      obtain ⟨room, places⟩ | ⟨full, _⟩ := rest
      · rw [places, if_pos rfl, (accounted.unborn next.ge).1]
      · exact absurd ⟨here, next, full⟩ accepted
    · have kept : t.places p = s.places p := by
        obtain ⟨_, places⟩ | ⟨_, places⟩ := rest
        · rw [places, if_neg same, Nat.add_zero]
        · rw [places]
      have before : (p : ℕ) < s.loader.i := by
        have apart : (p : ℕ) ≠ q := fun equal => same (Fin.ext equal.symm)
        omega
      rw [kept]
      exact present before (freed ▸ alive)

theorem Move.present (accounted : Accounted s p) (present : Present s p) (accepted : ¬s.Refuses p label)
    (moved : Move cfg env s label t) : Present t p := by
  cases moved with
  | clock moved => exact present
  | cpu moved => exact moved.present present accepted
  | loader moved => exact moved.present accounted present accepted
  | stop stopped finished => exact present

/-- A process in one place is held by exactly one CPU, or waits once in the queue of its level. -/
private theorem place_cases (sorted : s.sched.Sorted cfg.level) (one : s.places p = 1) :
    ((∃! i, (s.cpus i).loc.proc = some p) ∧ ∀ level, p ∉ s.sched.mlqReadyQueue level) ∨
    ((∀ i, (s.cpus i).loc.proc ≠ some p) ∧ ∃ level : Fin maxPrio, level = cfg.level p ∧
      (s.sched.mlqReadyQueue level).count p = 1 ∧
      ∀ other, other ≠ level → p ∉ s.sched.mlqReadyQueue other) := by
  rw [places] at one
  obtain queued | queued : s.sched.queued p = 0 ∨ s.sched.queued p = 1 := by omega
  · have alone : tally (holds p) s.cpus = 1 := by
      rw [held] at one
      omega
    refine .inl ⟨?_, Sched.queued_eq_zero_iff.mp queued⟩
    simpa only [holds_pos] using existsUnique_of_tally_eq_one alone
  · refine .inr ⟨held_eq_zero_iff.mp (by omega), ?_⟩
    obtain ⟨level, member, unique⟩ := existsUnique_of_tally_eq_one queued
    have here : p ∈ s.sched.mlqReadyQueue level := List.count_pos_iff.mp member
    refine ⟨level, sorted level p here, ?_, fun other apart elsewhere => ?_⟩
    · have bound := le_tally (List.count p) s.sched.mlqReadyQueue level
      rw [Sched.queued] at queued
      omega
    · exact apart (unique other (List.count_pos_iff.mpr elsewhere))

/-- A refused call leaves the process nowhere. -/
private theorem Refuses.nowhere (accounted : Accounted s p) (refused : s.Refuses p label)
    (taken : Step cfg env s label t) : t.places p = 0 := by
  cases label with
  | cpu i =>
    obtain ⟨here, unfinished, spent, full⟩ := refused
    simp only [Step, step, cpuStep, here, if_neg unfinished, if_pos spent, Option.some.injEq] at taken
    have count := places_put_refused (t := t) here full (by rw [← taken]; rfl) (by rw [← taken]; rfl) p
    have once := accounted.once
    rw [if_pos rfl] at count
    omega
  | loader =>
    obtain ⟨here, next, full⟩ := refused
    obtain ⟨none, _⟩ := accounted.unborn next.ge
    have bound : s.loader.i < N := next ▸ p.isLt
    have same : (⟨s.loader.i, bound⟩ : Fin N) = p := Fin.ext next.symm
    simp only [Step, step, loaderStep, here, dif_pos bound, same, Sched.addProc_refused full,
      Option.some.injEq] at taken
    subst taken
    exact none
  | _ => exact refused.elim

/-- In every run in which no level refuses the process it is, from its `add_proc` until a CPU frees it,
held by exactly one CPU or once in the queue of its level. A refused call leaves it nowhere. -/
theorem process_kept {labels : List (Label c)}
    (run : Run (guarded (fun s label => ¬s.Refuses p label) (Step cfg env)) (init cfg) labels s) :
    (p < s.loader.i → s.freed p = false →
      ((∃! i, (s.cpus i).loc.proc = some p) ∧ ∀ level, p ∉ s.sched.mlqReadyQueue level) ∨
      ((∀ i, (s.cpus i).loc.proc ≠ some p) ∧ ∃ level : Fin maxPrio, level = cfg.level p ∧
        (s.sched.mlqReadyQueue level).count p = 1 ∧
        ∀ other, other ≠ level → p ∉ s.sched.mlqReadyQueue other)) ∧
    ∀ label t, s.Refuses p label → Step cfg env s label t →
      (∀ i, (t.cpus i).loc.proc ≠ some p) ∧ ∀ level, p ∉ t.sched.mlqReadyQueue level := by
  have reached : Reachable cfg env s := ⟨labels, run.of_guarded⟩
  have present : Present s p := by
    induction run with
    | start => exact .init cfg p
    | next earlier taken ih =>
      have before : Reachable cfg env _ := ⟨_, earlier.of_guarded⟩
      exact (Step.move taken.2).present (before.accounted p) (ih before) taken.1
  refine ⟨fun added alive => place_cases reached.sorted (present added alive), ?_⟩
  intro label t refused taken
  have nowhere := refused.nowhere (reached.accounted p) taken
  rw [places] at nowhere
  exact ⟨held_eq_zero_iff.mp (by omega), Sched.queued_eq_zero_iff.mp (by omega)⟩

/-- A process whose level does not exist is added to no queue. -/
theorem add_proc_drops :
    let cfg := Config.atOnce 16 (fun _ : Fin 1 => [⟨.calc, 0, 0, 0, 0⟩]) 140
    let env : Env := ⟨.head, fun _ => 0⟩
    ∃ s : Os 1 1, Reachable cfg env s ∧ (0 : Fin 1) < s.loader.i ∧ s.freed 0 = false ∧
      (∀ i, (s.cpus i).loc.proc ≠ some 0) ∧ ∀ level, (0 : Fin 1) ∉ s.sched.mlqReadyQueue level := by
  intro cfg env
  let adding : Os 1 1 := { init cfg with loader := ⟨.adding, 0⟩ }
  let added : Os 1 1 := { adding with sched := adding.sched.addProc 140 0, loader := ⟨.slot, 1⟩ }
  have ready : Step cfg env (init cfg) .loader adding := rfl
  have added' : Step cfg env adding .loader added := rfl
  refine ⟨added, ((Reachable.init cfg env).next ready).next added', by decide, rfl, nofun, ?_⟩
  intro level member
  cases member

theorem process_kept_after_add :
    let cfg := Config.atOnce 16 (fun _ : Fin 1 => [⟨.calc, 0, 0, 0, 0⟩]) 7
    let env : Env := ⟨.head, fun _ => 0⟩
    ∃ s : Os 1 1, s.loader.i = 1 ∧ ∃ labels,
      Run (guarded (fun s label => ¬s.Refuses 0 label) (Step cfg env)) (init cfg) labels s ∧
      (((∃! i, (s.cpus i).loc.proc = some 0) ∧ ∀ level, (0 : Fin 1) ∉ s.sched.mlqReadyQueue level) ∨
      ((∀ i, (s.cpus i).loc.proc ≠ some 0) ∧ ∃ level : Fin maxPrio, level = cfg.level 0 ∧
        (s.sched.mlqReadyQueue level).count 0 = 1 ∧
        ∀ other, other ≠ level → (0 : Fin 1) ∉ s.sched.mlqReadyQueue other)) := by
  intro cfg env
  let adding : Os 1 1 := { init cfg with loader := ⟨.adding, 0⟩ }
  let added : Os 1 1 := { adding with sched := adding.sched.addProc 7 0, loader := ⟨.slot, 1⟩ }
  have ready : Step cfg env (init cfg) .loader adding := rfl
  have added' : Step cfg env adding .loader added := rfl
  have run : Run (guarded (fun s label => ¬s.Refuses 0 label) (Step cfg env)) (init cfg)
      ([.loader] ++ [.loader]) added := by
    refine (Run.one ⟨?_, ready⟩).next ⟨?_, added'⟩
    · rintro ⟨_, _, full⟩
      exact full ⟨by decide, by decide⟩
    · rintro ⟨⟨⟩, _⟩
  exact ⟨added, rfl, _, run, (process_kept run).1 (by decide) rfl⟩

end SimpleOS.Model.Os
