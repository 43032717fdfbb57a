import Mathlib.Data.Set.Card
import SimpleOS.Proofs.Places
import SimpleOS.Proofs.Spending
import SimpleOS.Soundness.Integrity

/-! # The memory of finished processes

`cpu_routine` gives a finished process to `free`, which returns its control block to the host. Nothing walks
its page tables, so its frames stay where they are, and since no other routine gives frames back they are
never free again. What does hold is the balance with the finished processes on the books: every frame is
free or in use by one of the processes that were loaded.
-/

namespace SimpleOS.Model

open Lib

variable {ι : Type} [DecidableEq ι] {m : Machine ι} {n : ℕ}

/-- The frames in use by some process. -/
def Machine.used (m : Machine ι) : Set ℕ := {f | ∃ P, m.Uses P f}

omit [DecidableEq ι] in
private theorem Machine.mem_used {f : ℕ} : f ∈ m.used ↔ m.links.Uses 5 f := by
  constructor
  · rintro ⟨P, pgd, path, short, reached⟩
    exact ⟨(P, pgd), path, short, reached⟩
  · rintro ⟨⟨P, pgd⟩, path, short, reached⟩
    exact ⟨P, pgd, path, short, reached⟩

omit [DecidableEq ι] in
/-- Free frames and frames in use add up to the RAM. -/
private theorem Machine.Owned.balance (owned : m.Owned n) : m.mram.freeFpList.length + m.used.ncard = n := by
  have nodup : m.mram.freeFpList.Nodup := owned.frames.nodup
  have all : (m.mram.freeFpList.toFinset : Set ℕ) ∪ m.used = (Finset.range n : Set ℕ) := by
    ext f
    simp only [Set.mem_union, List.coe_toFinset, Set.mem_ofPred_eq, Finset.coe_range, Set.mem_Iio, Machine.mem_used]
    constructor
    · rintro (free | used)
      · exact owned.frames.free_lt f free
      · exact owned.frames.used_lt f used
    · exact owned.covered f
  have apart : Disjoint (m.mram.freeFpList.toFinset : Set ℕ) m.used := by
    rw [Set.disjoint_left]
    intro f free used
    exact owned.frames.used_free f (Machine.mem_used.mp used) (by simpa using free)
  have finite : m.used.Finite := by
    refine (Finset.range n).finite_toSet.subset ?_
    rw [← all]
    exact Set.subset_union_right
  have sum := Set.ncard_union_eq apart (Finset.finite_toSet _) finite
  rw [all, Set.ncard_coe_finset, Set.ncard_coe_finset, Finset.card_range, List.toFinset_card_of_nodup nodup] at sum
  exact sum.symm

omit [DecidableEq ι] in
/-- All frames are free exactly when no process uses one. -/
private theorem Machine.Owned.all_free_iff (owned : m.Owned n) :
    m.mram.freeFpList.length = n ↔ ∀ P f, ¬m.Uses P f := by
  have balance := owned.balance
  have finite : m.used.Finite := by
    refine (Finset.range n).finite_toSet.subset fun f used => ?_
    simpa using owned.frames.used_lt f (Machine.mem_used.mp used)
  have none : m.used.ncard = 0 ↔ ∀ P f, ¬m.Uses P f := by
    rw [Set.ncard_eq_zero finite, Set.eq_empty_iff_forall_notMem]
    exact ⟨fun empty P f uses => empty f ⟨P, uses⟩, fun empty f ⟨P, uses⟩ => empty P f uses⟩
  rw [← none]
  omega

namespace Os

variable {c N : ℕ} {cfg : Config N} {env : Env} {s t : Os c N} {i : Fin c} {label : Label c}

/-- Memory changes in calls of `run` only. -/
private theorem Move.mem (moved : Move cfg env s label t) : t.mem = s.mem ∨ ∃ i p, label = .cpu i ∧
    (s.cpus i).loc = .run p ∧ Machine.Exec env s.mem (p, s.sched.runningList) t.mem := by
  cases moved with
  | clock moved quiet => exact .inl rfl
  | cpu moved =>
    cases moved with
    | run here ran => exact .inr ⟨_, _, rfl, here, _, ran⟩
    | _ => exact .inl rfl
  | loader moved => cases moved <;> exact .inl rfl
  | stop stopped finished => exact .inl rfl

private theorem Move.spends (moved : Move cfg env s label t) : s.mem.mram.Spends t.mem.mram := by
  obtain same | ⟨i, p, -, -, status, ran⟩ := moved.mem
  · rw [same]
    exact .refl _
  · exact Machine.run_spends ran

/-- Along a run the free list only shrinks. -/
private theorem run_spends {labels : List (Label c)} (run : Run (Step cfg env) s labels t) :
    s.mem.mram.Spends t.mem.mram := by
  induction run with
  | start => exact .refl _
  | next earlier taken spends => exact spends.trans (Step.move taken).spends

/-- The instruction a CPU is about to run makes no request that damages page tables or pages. -/
def MemIntact (s : Os c N) (label : Label c) : Prop :=
  ∀ i p, label = .cpu i → (s.cpus i).loc = .run p → s.mem.Intact (p, s.sched.runningList)

private theorem init_initial {n : ℕ} {contents : Bytes} (ram : cfg.mram = initMemphy n contents) :
    (init cfg : Os c N).mem.Initial n :=
  ⟨⟨contents, ram⟩, fun p => ⟨cfg.heap p, rfl⟩⟩

private theorem owned_run {n : ℕ} {labels : List (Label c)} (owned : s.mem.Owned n)
    (run : Run (guarded MemIntact (Step cfg env)) s labels t) : t.mem.Owned n := by
  induction run with
  | start => exact owned
  | next earlier taken kept =>
    obtain ⟨intact, taken⟩ := taken
    obtain same | ⟨i, p, cpu, here, ran⟩ := (Step.move taken).mem
    · rw [same]
      exact kept
    · exact (ran.carries kept (intact i p cpu here)).owned

/-- Retiring a finished process leaves the memory as it is, and a frame that is not free stays so in every
later state. The number of free frames is the initial one exactly when no frame is missing; in runs of
intact requests this is the case exactly when no process, finished or not, uses a frame. -/
theorem retired_frames_stay (cfg : Config N) (env : Env) :
    (∀ (s t : Os c N) i p, Step cfg env s (.cpu i) t → (s.cpus i).loc = .top (some p) → s.Finished p →
      t.freed p = true ∧ t.mem = s.mem) ∧
    (∀ (s t : Os c N) labels, Run (Step cfg env) s labels t → ∀ f, f ∉ s.mem.mram.freeFpList →
      f ∉ t.mem.mram.freeFpList) ∧
    (∀ s : Os c N, Reachable cfg env s → (s.mem.mram.freeFpList.length = cfg.mram.freeFpList.length ↔
      s.mem.mram.freeFpList.Perm cfg.mram.freeFpList)) ∧
    (∀ n contents labels (s : Os c N), cfg.mram = initMemphy n contents → n ≤ 8192 →
      Run (guarded MemIntact (Step cfg env)) (init cfg) labels s →
      s.mem.mram.freeFpList.length + s.mem.used.ncard = n ∧
      (s.mem.mram.freeFpList.length = n ↔ ∀ p f, ¬s.mem.Uses p f)) := by
  refine ⟨?_, ?_, ?_, ?_⟩
  · intro s t i p taken here finished
    simp only [Step, step, cpuStep, here, if_pos finished, Option.some.injEq] at taken
    subst taken
    exact ⟨Function.update_self .., rfl⟩
  · intro s t labels run f missing free
    exact missing ((run_spends run).subset free)
  · rintro s ⟨labels, run⟩
    constructor
    · intro same
      exact (run_spends run).perm_of_length_le (Nat.le_of_eq same.symm)
    · exact List.Perm.length_eq
  · intro n contents labels s ram small run
    have owned : s.mem.Owned n := owned_run ((init_initial ram).owned small) run
    exact ⟨owned.balance, owned.all_free_iff⟩

/-- Programs without system calls make no requests. -/
private theorem memIntact_run {labels : List (Label c)} (plain : ∀ p, ∀ ins ∈ cfg.text p, ins.opcode ≠ .syscall)
    (run : Run (Step cfg env) (init cfg) labels s) :
    Run (guarded MemIntact (Step cfg env)) (init cfg) labels s := by
  induction run with
  | start => exact .start
  | next earlier taken ih =>
    refine ih.next ⟨?_, taken⟩
    intro i p _ _ ins next opcode
    have text := (Reachable.loaded ⟨_, earlier⟩ p).text
    rw [text] at next
    exact absurd opcode (plain p ins (List.mem_of_getElem? next))

/-- One process on 16 frames that writes one byte. -/
def oneWrite : Config 1 := Config.atOnce 16 (fun _ => [⟨.write, 7, 3, 0, 0⟩]) 7

/-- It is loaded, writes its byte and is retired. -/
def oneWriteSteps : List (Label 1) :=
  [.loader, .loader, .cpu 0, .cpu 0, .cpu 0, .loader, .cpu 0, .timer, .timer, .timer, .timer, .timer, .timer,
    .loader, .loader, .loader, .cpu 0, .cpu 0]

private theorem oneWrite_retired : ∃ s : Os 1 1, exec oneWrite ⟨.head, fun _ => 0⟩ oneWriteSteps = some s ∧
    (s.done, s.freed 0, s.mem.mram.freeFpList.length) = (true, true, 11) := by
  have computed : (exec oneWrite ⟨.head, fun _ => 0⟩ oneWriteSteps).map
      (fun s : Os 1 1 => (s.done, s.freed 0, s.mem.mram.freeFpList.length)) = some (true, true, 11) := by
    decide +kernel
  exact Option.map_eq_some_iff.mp computed

/-- The retired process is still on the books with five frames. -/
theorem retired_frames_stay_of_write : let env : Env := ⟨.head, fun _ => 0⟩
    ∃ s : Os 1 1, Reachable oneWrite env s ∧ s.freed 0 = true ∧ s.mem.used.ncard = 5 := by
  intro env
  obtain ⟨s, computed, values⟩ := oneWrite_retired
  simp only [Prod.mk.injEq] at values
  obtain ⟨-, freed, free⟩ := values
  have plain : ∀ p, ∀ ins ∈ oneWrite.text p, ins.opcode ≠ .syscall := by decide
  have intact := memIntact_run plain (Run.of_foldlM computed)
  have balance := ((retired_frames_stay oneWrite env).2.2.2 16 _ _ s rfl (by decide) intact).1
  exact ⟨s, .of_exec computed, freed, by omega⟩

/-- All processes are finished and freed, and five of the 16 frames are not free. -/
theorem finished_process_keeps_frames : let env : Env := ⟨.head, fun _ => 0⟩
    ¬∀ s : Os 1 1, Reachable oneWrite env s → s.done = true → (∀ p, s.freed p = true) →
      s.mem.mram.freeFpList.length = oneWrite.mram.freeFpList.length := by
  intro env returned
  obtain ⟨s, computed, values⟩ := oneWrite_retired
  simp only [Prod.mk.injEq] at values
  obtain ⟨done, freed, free⟩ := values
  have all := returned s (.of_exec computed) done fun p => Subsingleton.elim p 0 ▸ freed
  rw [free] at all
  exact absurd all (by decide)

end Os

end SimpleOS.Model
