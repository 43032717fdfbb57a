import SimpleOS.Model.Loader
import SimpleOS.Proofs.Alike
import SimpleOS.Soundness.FreeList

/-! # Results and uninitialised memory

`load` fills in what the file gives, `init_mm` hangs the first free region in front of whatever the list head
held, and nothing writes the registers. The list of free regions therefore shows the contents of the heap from
the first instruction on. Apart from the list, two runs differ when an instruction uses an argument the file does
not give, when FREE tests a register that has not been written, when `__sys_mmstats` counts words behind the
root directory, or when a raw access to RAM takes `regs[6]` for a pointer.
-/

namespace SimpleOS.Model

variable {ι : Type} [DecidableEq ι] {m m' : Machine ι} {env : Env} {P : ι} {runningList : List ι}
  {status : Int}

/-- The status of one call of `run` and the regions of the process after it. -/
structure Observation where
  status : Int
  symrgtbl : Fin 30 → VmRg
  sbrk : Addr
  vmEnd : Addr
  vmFreergList : List VmRg

namespace Machine

/-- What is compared after a call of `run`. -/
def observe (m : Machine ι) (P : ι) (status : Int) : Observation :=
  let mm := (m.procs P).mm
  ⟨status, mm.symrgtbl, mm.mmap.sbrk, mm.mmap.vmEnd, mm.mmap.vmFreergList⟩

/-- The observations of `n` calls of `run`. -/
def results (env : Env) (runningList : List ι) (P : ι) : ℕ → Machine ι → Except Fault (List Observation)
  | 0, _ => .ok []
  | n + 1, m =>
    match m.run env runningList P with
    | .error fault => .error fault
    | .ok (m, status) => (results env runningList P n m).map (m.observe P status :: ·)

/-- The machine with a newly loaded process `P`. -/
def start (m : Machine ι) (P : ι) (heap : LoadHeap) (pid : BitVec 32) (text : List Inst) (prio : ℕ) :
    Machine ι :=
  { m with procs := Function.update m.procs P (loadProc heap.toMalloc pid text prio) }

/-- From any two heaps in which the file is accepted, the process runs to completion with the same
observations. -/
def Independent (env : Env) (runningList : List ι) (m : Machine ι) (P : ι) (pid : BitVec 32) (prio : ℕ)
    (file : List Char) : Prop :=
  ∀ heap heap' program program', load heap file = some program → load heap' file = some program' →
    ∃ observations,
      (m.start P heap pid program.text prio).results env runningList P program.text.length = .ok observations ∧
      (m.start P heap' pid program'.text prio).results env runningList P program'.text.length = .ok observations

/-- The next `n` instructions of two machines read the same of uninitialised memory. -/
def SameReadsAlong (env : Env) (runningList : List ι) (P : ι) : ℕ → Machine ι → Machine ι → Prop
  | 0, _, _ => True
  | n + 1, m, m' => m.SameReads runningList P m' ∧ ∀ after after' status status',
      m.run env runningList P = .ok (after, status) → m'.run env runningList P = .ok (after', status') →
      SameReadsAlong env runningList P n after after'

omit [DecidableEq ι] in
private theorem Alike.observe (alike : m.Alike P m') (status : Int) : m'.observe P status = m.observe P status := by
  rw [Machine.observe, alike.proc.mm]
  rfl

/-- Alike machines that read the same have the same results. -/
private theorem Alike.results {n : ℕ} (alike : m.Alike P m') (reads : SameReadsAlong env runningList P n m m') :
    m'.results env runningList P n = m.results env runningList P n := by
  induction n generalizing m m' with
  | zero => rfl
  | succ n ih =>
    obtain ⟨here, later⟩ := reads
    have step := alike.run env here
    rw [Machine.results, Machine.results]
    generalize m.run env runningList P = result at step later
    generalize m'.run env runningList P = result' at step later
    cases step with
    | error fault => rfl
    | ok after status =>
      simp only
      rw [ih after (later _ _ _ _ rfl rfl), after.observe]

/-- Two heaps with the same list head start alike. -/
private theorem start_alike (m : Machine ι) (P : ι) (pid : BitVec 32) (prio : ℕ) {heap heap' : LoadHeap}
    {text text' : List Inst} (tail : heap'.freergTail = heap.freergTail) (size : text'.length = text.length) :
    (m.start P heap pid text prio).Alike P (m.start P heap' pid text' prio) where
  proc := by
    simp only [Machine.start, Function.update_self]
    refine ⟨rfl, rfl, size, ?_⟩
    simp only [loadProc, initMm, tail]
  others Q other := by simp only [Machine.start, Function.update_of_ne other]
  mram := rfl
  mswp := rfl

/-- No instruction touches the list of free regions. -/
private theorem run_freergList (completed : m.run env runningList P = .ok (m', status)) (Q : ι) :
    (m'.procs Q).mm.mmap.vmFreergList = (m.procs Q).mm.mmap.vmFreergList := by
  obtain ⟨-, rfl⟩ | ⟨ins, -, executed⟩ := Machine.run_cases completed
  · rfl
  rw [← m.advance_mm P Q]
  obtain ⟨-, rfl⟩ | ⟨call, t, -, rfl, stored⟩ | ⟨-, served⟩ := Machine.execute_cases executed
  · rfl
  · simp only [Machine.put, Function.update_apply]
    split
    · rename_i here
      subst here
      change t.krnl.mm.mmap.vmFreergList = ((m.advance Q).task Q).krnl.mm.mmap.vmFreergList
      obtain routine | ⟨-, unchanged⟩ := stored
      · rw [routine]
        exact Call.kernel_freergList env.driver _ call
      · rw [unchanged]
    · rfl
  · exact served.kept (fun mm => mm.mmap.vmFreergList) (fun _ _ _ => rfl) (fun _ _ => rfl) Q

/-- The first observation shows the list of free regions as it was before. -/
private theorem results_freergList {n : ℕ} {observations : List Observation}
    (completed : m.results env runningList P (n + 1) = .ok observations) :
    observations.head?.map Observation.vmFreergList = some (m.procs P).mm.mmap.vmFreergList := by
  rw [Machine.results] at completed
  cases ran : m.run env runningList P with
  | error fault =>
    rw [ran] at completed
    cases completed
  | ok result =>
    obtain ⟨after, status⟩ := result
    rw [ran] at completed
    simp only at completed
    cases later : after.results env runningList P n with
    | error fault =>
      rw [later] at completed
      cases completed
    | ok rest =>
      rw [later] at completed
      cases completed
      exact congrArg some (Machine.run_freergList ran P)

end Machine

/-- The results of a file are independent of uninitialised memory exactly when the file has no instruction.
Two given heaps with the same list head and the same size of the program yield the same results as long as the
instructions read the same of uninitialised memory. -/
theorem results_independent_iff (env : Env) (runningList : List ι) (m : Machine ι) (P : ι) (pid : BitVec 32)
    (prio : ℕ) (file : List Char) :
    (m.Independent env runningList P pid prio file ↔
      ∀ heap program, load heap file = some program → program.text = []) ∧
    ∀ heap heap' program program', load heap file = some program → load heap' file = some program' →
      heap'.freergTail = heap.freergTail → program'.text.length = program.text.length →
      Machine.SameReadsAlong env runningList P program.text.length (m.start P heap pid program.text prio)
        (m.start P heap' pid program'.text prio) →
      (m.start P heap' pid program'.text prio).results env runningList P program'.text.length =
        (m.start P heap pid program.text prio).results env runningList P program.text.length := by
  constructor
  · constructor
    · intro independent heap program loaded
      by_contra some_inst
      obtain ⟨n, count⟩ := Nat.exists_eq_succ_of_ne_zero (mt List.length_eq_zero_iff.mp some_inst)
      -- the same heap with one more region behind the uninitialised list head
      let heap' : LoadHeap := { heap with freergTail := ⟨0, 0⟩ :: heap.freergTail }
      obtain ⟨observations, first, second⟩ := independent heap heap' program program loaded loaded
      rw [count] at first second
      have lists := (Machine.results_freergList first).symm.trans (Machine.results_freergList second)
      simp only [Machine.start, Function.update_self, loadProc, initMm, enlistVmRgNode, Option.some.injEq,
        List.cons.injEq, true_and, heap'] at lists
      exact List.cons_ne_self _ _ lists.symm
    · intro empty heap heap' program program' loaded loaded'
      rw [empty heap program loaded, empty heap' program' loaded']
      exact ⟨[], rfl, rfl⟩
  · intro heap heap' program program' _ _ tail size reads
    rw [size]
    exact (m.start_alike P pid prio tail size).results reads

/-- A heap whose registers, missing arguments and words behind `pgd` all hold one value. -/
def LoadHeap.filled (value : Addr) : LoadHeap := ⟨⟨fun _ => value, [], fun _ => value⟩, 0, 0, fun _ _ => value⟩

/-- One process slot on 16 frames. -/
def Machine.single : Machine Unit := Machine.boot 16 (fun _ => 1) fun _ => []

/-- The system call of a line that gives two of its four numbers. -/
theorem results_independent_of_short_line :
    let env : Env := ⟨.head, fun _ => 0⟩
    let file := ['1', ' ', '1', '\n', 's', 'y', 's', 'c', 'a', 'l', 'l', ' ', '1', '0', '1', ' ', '1', '\n']
    ∃ text text', (load (.filled 0) file).map Program.text = some text ∧
      (load (.filled 9) file).map Program.text = some text' ∧ text ≠ text' ∧
      (Machine.single.start () (.filled 9) 1 text' 0).results env [()] () 1 =
        (Machine.single.start () (.filled 0) 1 text 0).results env [()] () 1 := by
  intro env file
  have loaded : load (.filled 0) file = some ⟨1, [⟨.syscall, 101, 1, 0, 0⟩]⟩ := by rfl
  have loaded' : load (.filled 9) file = some ⟨1, [⟨.syscall, 101, 1, 9, 9⟩]⟩ := by rfl
  refine ⟨_, _, congrArg _ loaded, congrArg _ loaded', by decide, ?_⟩
  refine (results_independent_iff env [()] Machine.single () 1 0 file).2 _ _ _ _ loaded loaded' rfl rfl ?_
  refine ⟨?_, fun _ _ _ _ _ _ => trivial⟩
  rintro ins ins' ⟨⟩ ⟨⟩
  exact ⟨⟨rfl, rfl, by decide, by decide⟩, nofun, by decide, fun raw => absurd raw.2.1 (by decide)⟩

/-- `write 5 0 0` and `free 0`, with what the heap has left in the arguments behind them. -/
def writeThenFree (value : Addr) : List Inst := [⟨.write, 5, 0, 0, value⟩, ⟨.free, 0, value, value, value⟩]

/-- `write 5 0 0` gives symbol 0 a region without writing its register; whether `free 0` succeeds depends on
what the register held. -/
theorem results_depend_on_register :
    let env : Env := ⟨.head, fun _ => 0⟩
    let file := ['1', ' ', '2', '\n', 'w', 'r', 'i', 't', 'e', ' ', '5', ' ', '0', ' ', '0', '\n',
      'f', 'r', 'e', 'e', ' ', '0', '\n']
    load (.filled 0) file = some ⟨1, writeThenFree 0⟩ ∧ load (.filled 9) file = some ⟨1, writeThenFree 9⟩ ∧
    ((Machine.single.start () (.filled 0) 1 (writeThenFree 0) 0).results env [()] () 2).toOption.map
      (List.map Observation.status) = some [0, -1] ∧
    ((Machine.single.start () (.filled 9) 1 (writeThenFree 9) 0).results env [()] () 2).toOption.map
      (List.map Observation.status) = some [0, 0] ∧
    ¬Machine.single.Independent env [()] () 1 0 file := by
  intro env file
  have loaded : load (.filled 0) file = some ⟨1, writeThenFree 0⟩ := by rfl
  have loaded' : load (.filled 9) file = some ⟨1, writeThenFree 9⟩ := by rfl
  have first : ((Machine.single.start () (.filled 0) 1 (writeThenFree 0) 0).results env [()] () 2).toOption.map
      (List.map Observation.status) = some [0, -1] := by decide +kernel
  have second : ((Machine.single.start () (.filled 9) 1 (writeThenFree 9) 0).results env [()] () 2).toOption.map
      (List.map Observation.status) = some [0, 0] := by decide +kernel
  refine ⟨loaded, loaded', first, second, fun independent => ?_⟩
  obtain ⟨observations, ran, ran'⟩ := independent _ _ _ _ loaded loaded'
  change Machine.results env [()] () 2 _ = _ at ran
  change Machine.results env [()] () 2 _ = _ at ran'
  rw [ran] at first
  rw [ran'] at second
  have same := first.symm.trans second
  revert same
  decide

end SimpleOS.Model
