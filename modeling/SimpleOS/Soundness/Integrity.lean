import SimpleOS.Proofs.Held
import SimpleOS.Soundness.Frames
import SimpleOS.Soundness.Isolation
import SimpleOS.Soundness.Release

/-! # Page tables under system call 17

`SYSMEM_MAP_OP` stores frame numbers of a fixed pattern in the page table. A request that maps no page keeps
every page where it is; so do the other requests that the handler completes and all library calls, which take
the frame of a new page from the free list.
-/

namespace SimpleOS.Model

open Lib

variable {ι : Type} [DecidableEq ι] {m m' now after : Machine ι} {n : ℕ} {env : Env} {P Q : ι} {ins : Inst}
  {runningList : List ι} {others : ι → Fin 512 → Addr} {k k' : Krnl}

/-- Every frame stays at its position, and ownership holds again. -/
structure Machine.Carries (n : ℕ) (m m' : Machine ι) : Prop where
  owned : m'.Owned n
  kept : ∀ r path f, path.length < 5 → m.links.frameAt r path = some f → m'.links.frameAt r path = some f

/-- The pages keep their bytes as well. -/
structure Machine.Preserves (n : ℕ) (m m' : Machine ι) : Prop extends Machine.Carries n m m' where
  bytes : ∀ r path a, path.length = 4 → m.links.frameAt r path = some (a / pagingPagesz) →
    m'.mram.storage a = m.mram.storage a

/-- No round of `vmap_pgd_memset` finds or completes the path of its page. -/
def MapsNothing (addr : Addr) (k : Krnl) (pgnum : ℕ) : Prop :=
  ∀ pgit < pgnum, (pteSetFpn (vmapPgdMemsetLoop addr k pgit) (pagingPgn (addr + pageOffset pgit))
    ((0xdeadbeef + pgit) &&& 0xFFFFF)).2 ≠ 0

/-- A request of `__sys_memmap` that maps no page from the fixed pattern. -/
def Machine.IntactRequest (m : Machine ι) (caller : ι) (memop a2 a3 : Addr) : Prop :=
  (memop.setWidth 32).toNat = sysmemMapOp → (a3.setWidth 32).toInt ≤ 0 ∨
    0 ∉ m.mram.freeFpList ∧
      MapsNothing ((a2.setWidth 32).setWidth 64) (m.task caller).krnl (a3.setWidth 32).toInt.toNat

/-- The next instruction of the process makes no other request. -/
def Machine.Intact (m : Machine ι) (label : ι × List ι) : Prop :=
  ∀ ins, (m.procs label.1).text[(m.procs label.1).pc]? = some ins → ins.opcode = .syscall →
    (ins.arg0.setWidth 32).toNat = 17 → ∀ caller, m.findPid label.2 (m.procs label.1).pid = some caller →
    m.IntactRequest caller ins.arg1 ins.arg2 ins.arg3

omit [DecidableEq ι] in
private theorem Machine.Preserves.of_same (owned : m.Owned n) (roots : m'.roots = m.roots)
    (mram : m'.mram = m.mram) : m.Preserves n m' := by
  have links : m'.links = m.links := by rw [Machine.links, Machine.links, roots, mram]
  refine ⟨⟨by rw [Machine.Owned, links, mram]; exact owned, ?_⟩, ?_⟩
  · intro r path f _ reached
    rw [links, reached]
  · intro r path a _ _
    rw [mram]

/-- Storing a kernel state back for one process keeps what the routine keeps. -/
private theorem Machine.Preserves.of_paged (leaves : m.Leaves P k m')
    (owned : Model.Owned n (k.links m.roots P) k.mram)
    (paged : Paged m.roots P (m.task P).krnl k) : m.Preserves n m' := by
  refine ⟨⟨?_, ?_⟩, ?_⟩
  · rw [Machine.Owned, leaves.links, leaves.mram]
    exact owned
  · intro r path f short reached
    rw [leaves.links]
    exact paged.kept r path f short (by rw [m.links_task, reached])
  · intro r path a deep reached
    rw [leaves.mram]
    exact paged.bytes r path a (by omega) (.inr deep) (by rw [m.links_task]; exact reached)

private theorem Machine.Carries.of_kernel (owned : m.Owned n) {call : Call} {driver : Driver}
    (leaves : m.Leaves P (call.kernel driver (m.task P).krnl) m') : m.Carries n m' := by
  have split : (_ ∧ Paged m.roots P (m.task P).krnl (call.kernel driver (m.task P).krnl)) ∨ _ :=
    call.kernel_cases (owned.krnl P)
  obtain ⟨owned', paged⟩ | ⟨v, destination, offset, k', f, addr, rfl, stored, -, fetched⟩ := split
  · exact (Machine.Preserves.of_paged leaves owned' paged).toCarries
  · refine ⟨?_, ?_⟩
    · rw [Machine.Owned, leaves.links, leaves.mram]
      exact Call.kernel_owned (owned.krnl P) _
    · intro r path g short reached
      rw [leaves.links, Call.kernel, stored,
        frameAt_storeByte fetched.owned.frames (pagePath_length _) (fetched.reached f rfl) (offsetOf_lt _) v r path
          short]
      exact fetched.paged.kept r path g short (by rw [m.links_task, reached])

/-- A library call takes no page away. -/
private theorem Machine.Carries.of_call (owned : m.Owned n) {call : Call} {driver : Driver} (leaves : m.Leaves P k m')
    (stored : call.Stored driver (m.task P).krnl k) : m.Carries n m' := by
  obtain rfl | ⟨-, rfl⟩ := stored
  · exact .of_kernel owned leaves
  · exact (Machine.Preserves.of_paged leaves (owned.krnl P) (.refl _ _ _)).toCarries

/-- A `pte_set_fpn` that fails has completed a part of the path at most. -/
private theorem pteSetFpn_failed (owned : Owned n (k.links others P) k.mram) (nonzero : 0 ∉ k.mram.freeFpList)
    {pgn : Addr} {fpn : ℕ} (failed : (pteSetFpn k pgn fpn).2 ≠ 0) :
    Owned n ((pteSetFpn k pgn fpn).1.links others P) (pteSetFpn k pgn fpn).1.mram ∧
      0 ∉ (pteSetFpn k pgn fpn).1.mram.freeFpList ∧ Paged others P k (pteSetFpn k pgn fpn).1 := by
  have ensured := ensurePteMapping_ensured (owned.frames.mono (by omega)) nonzero (pdOf pgn)
  rw [pteSetFpn, getPdFromPagenum_eq] at failed ⊢
  dsimp only at failed ⊢
  generalize ensurePteMapping k (pdOf pgn) = result at ensured failed
  obtain ⟨grown, _ | table⟩ := result
  · have nonzero' : 0 ∉ grown.mram.freeFpList := ensured.nonzero nonzero
    refine ⟨⟨ensured.grows.frames owned.frames ensured.frames, ?_, ensured.grows.covered owned.covered⟩, nonzero',
      ensured.grows.paged owned.frames⟩
    exact fun member => nonzero' (List.mem_of_mem_tail member)
  · exact absurd rfl failed

private theorem vmapPgdMemsetLoop_failed (owned : Owned n (k.links others P) k.mram) (nonzero : 0 ∉ k.mram.freeFpList)
    {addr : Addr} {pgnum : ℕ} (nothing : MapsNothing addr k pgnum) :
    Owned n ((vmapPgdMemsetLoop addr k pgnum).links others P) (vmapPgdMemsetLoop addr k pgnum).mram ∧
      0 ∉ (vmapPgdMemsetLoop addr k pgnum).mram.freeFpList ∧
      Paged others P k (vmapPgdMemsetLoop addr k pgnum) := by
  induction pgnum with
  | zero => exact ⟨owned, nonzero, .refl others P k⟩
  | succ pgit ih =>
    obtain ⟨owned', nonzero', paged⟩ := ih fun round below => nothing round (by omega)
    obtain ⟨owned'', nonzero'', paged'⟩ := pteSetFpn_failed owned' nonzero' (nothing pgit (by omega))
    exact ⟨owned'', nonzero'', paged.trans paged'⟩

/-- A mapping request that maps nothing keeps all pages. -/
private theorem Machine.Preserves.of_map (owned : m.Owned n) {caller : ι} {a2 a3 : Addr}
    (nothing : (a3.setWidth 32).toInt ≤ 0 ∨ 0 ∉ m.mram.freeFpList ∧
      MapsNothing ((a2.setWidth 32).setWidth 64) (m.task caller).krnl (a3.setWidth 32).toInt.toNat) :
    m.Preserves n (m.put caller ((m.task caller).setKrnl (Machine.sysmemMap (m.task caller).krnl a2 a3))) := by
  have spared : Model.Owned n ((Machine.sysmemMap (m.task caller).krnl a2 a3).links m.roots caller)
        (Machine.sysmemMap (m.task caller).krnl a2 a3).mram ∧
      Paged m.roots caller (m.task caller).krnl (Machine.sysmemMap (m.task caller).krnl a2 a3) := by
    rw [Machine.sysmemMap, vmapPgdMemset]
    obtain none_asked | ⟨nonzero, fails⟩ := nothing
    · rw [Int.toNat_of_nonpos none_asked]
      exact ⟨owned.krnl caller, .refl _ _ _⟩
    · obtain ⟨owned', -, paged⟩ := vmapPgdMemsetLoop_failed (owned.krnl caller) nonzero fails
      exact ⟨owned', paged⟩
  exact .of_paged (m.leaves_put caller) spared.1 spared.2

/-- An intact request, and every other system call, keeps all pages. -/
private theorem Machine.Preserves.of_served (owned : m.Owned n) {nr : BitVec 32} {a1 a2 a3 : Addr}
    (intact : nr.toNat = 17 → ∀ caller, m.findPid runningList (m.procs P).pid = some caller →
      m.IntactRequest caller a1 a2 a3)
    (served : Machine.Served env m runningList P nr a1 a2 a3 m') : m.Preserves n m' := by
  cases served with
  | nothing => exact .of_same owned rfl rfl
  | mapped memmap found request => exact .of_map owned (intact memmap _ found request)
  | grown memmap found request =>
    rename_i caller
    obtain ⟨pgd, mram⟩ := sysmemInc_memory (m.task caller).krnl a2 a3
    exact .of_paged (m.leaves_put caller) ((owned.krnl caller).of_same pgd mram) (.of_same pgd mram)
  | swapped memmap found request =>
    refine .of_same owned ?_ Machine.mmSwapPage_mram
    funext Q
    rw [Machine.roots, Machine.mmSwapPage_procs]
    rfl

/-- The next instruction is system call 17. -/
def Machine.Memmap (m : Machine ι) (P : ι) : Prop :=
  ∃ ins, (m.procs P).text[(m.procs P).pc]? = some ins ∧ ins.opcode = .syscall ∧ (ins.arg0.setWidth 32).toNat = 17

private theorem Machine.Carries.of_advance (carries : (m.advance P).Carries n m') : m.Carries n m' := by
  refine ⟨carries.owned, ?_⟩
  rw [← m.advance_links P]
  exact carries.kept

private theorem Machine.Preserves.of_advance (preserves : (m.advance P).Preserves n m') : m.Preserves n m' := by
  refine ⟨preserves.toCarries.of_advance, ?_⟩
  rw [← m.advance_links P]
  exact preserves.bytes

/-- The request is judged before the program counter is advanced. -/
private theorem Machine.IntactRequest.advance {caller : ι} {memop a2 a3 : Addr}
    (intact : m.IntactRequest caller memop a2 a3) (P : ι) :
    (m.advance P).IntactRequest caller memop a2 a3 := by
  rw [Machine.IntactRequest, m.advance_krnl]
  exact intact

/-- System call 17 with an intact request keeps all pages and symbol tables. -/
private theorem Machine.Exec.preserves (owned : m.Owned n) {label : ι × List ι} (intact : m.Intact label)
    (memmap : m.Memmap label.1) (step : Machine.Exec env m label m') :
    m.Preserves n m' ∧ ∀ Q, (m'.procs Q).mm.symrgtbl = (m.procs Q).mm.symrgtbl := by
  obtain ⟨ins, next, opcode, number⟩ := memmap
  obtain ⟨status, completed⟩ := step
  obtain ⟨ended, -⟩ | ⟨ins', next', executed⟩ := Machine.run_cases completed
  · rw [next] at ended
    cases ended
  · cases next.symm.trans next'
    obtain ⟨opcode', -⟩ | ⟨call, t, calls, -, -⟩ | ⟨-, served⟩ := Machine.execute_cases executed
    · cases opcode.symm.trans opcode'
    · rw [Inst.call, opcode] at calls
      cases calls
    · refine ⟨(Machine.Preserves.of_served (owned.advance label.1) ?_ served).of_advance, ?_⟩
      · intro _ caller found
        rw [m.advance_findPid, m.advance_pid] at found
        exact (intact ins next opcode number caller found).advance label.1
      · intro Q
        rw [served.symrgtbl, m.advance_mm]

/-- A step whose request is intact takes no page away. -/
theorem Machine.Exec.carries (owned : m.Owned n) {label : ι × List ι} (intact : m.Intact label)
    (step : Machine.Exec env m label m') : m.Carries n m' := by
  obtain ⟨status, completed⟩ := step
  obtain ⟨-, rfl⟩ | ⟨ins, next, executed⟩ := Machine.run_cases completed
  · exact (Machine.Preserves.of_same owned rfl rfl).toCarries
  have advanced := owned.advance label.1
  apply Machine.Carries.of_advance (P := label.1)
  obtain ⟨-, rfl⟩ | ⟨call, t, -, rfl, stored⟩ | ⟨opcode, served⟩ := Machine.execute_cases executed
  · exact (Machine.Preserves.of_same advanced rfl rfl).toCarries
  · exact .of_call advanced (Machine.leaves_put _ _) stored
  · refine (Machine.Preserves.of_served advanced ?_ served).toCarries
    intro number caller found
    rw [m.advance_findPid, m.advance_pid] at found
    exact (intact ins next opcode number caller found).advance label.1

theorem Machine.Owned.intact_run {labels : List (ι × List ι)} (owned : m.Owned n)
    (run : Run (guarded Machine.Intact (Machine.Exec env)) m labels now) : now.Owned n := by
  refine run.keeps owned ?_
  rintro before label after owned ⟨intact, step⟩
  exact (step.carries owned intact).owned

/-- A page keeps its frame. -/
private theorem Machine.Carries.page (owned : m.Owned n) (carries : m.Carries n m') {pgn : BitVec 45} {f : ℕ}
    (page : m.frameOf (.page P pgn) = some f) : m'.frameOf (.page P pgn) = some f := by
  have deep := pagePath_length (pgn.setWidth 64)
  rw [owned.frameOf_page] at page
  rw [carries.owned.frameOf_page]
  exact carries.kept _ _ f (by omega) page

/-- The frame of a new page comes from the free list. -/
private theorem Machine.Carries.new_page (owned : m.Owned n) (carries : m.Carries n m') {pgn : BitVec 45} {f : ℕ}
    (absent : m.frameOf (.page P pgn) = none) (page : m'.frameOf (.page P pgn) = some f) :
    f ∈ m.mram.freeFpList := by
  have deep := pagePath_length (pgn.setWidth 64)
  rw [owned.frameOf_page] at absent
  rw [carries.owned.frameOf_page] at page
  have bound := carries.owned.frames.used_lt f ⟨_, _, by omega, page⟩
  obtain free | ⟨r, path, short, used⟩ := owned.covered f bound
  · exact free
  · -- the frame would still be in its old position, which is then that of the page
    have still := carries.kept r path f short used
    obtain ⟨rfl, rfl⟩ := carries.owned.frames.separated _ _ _ _ f short (by omega) still page
    rw [absent] at used
    cases used

omit [DecidableEq ι] in
/-- What is held stays held when pages and symbol tables are kept. -/
private theorem Machine.Preserves.holds (preserves : m.Preserves n m')
    (tables : (m'.procs P).mm.symrgtbl = (m.procs P).mm.symrgtbl) {r : BitVec 32} {off : Addr} {v : BitVec 8}
    (holds : m.Holds P r off v) : m'.Holds P r off v := by
  obtain ⟨slot, addr, inside, held⟩ := holds
  refine ⟨slot, addr, inside.congr (congrFun tables slot), ?_⟩
  obtain ⟨f, reached, rfl⟩ := Option.map_eq_some_iff.mp held
  have deep := pagePath_length (pageOf (addr.setWidth 32))
  rw [byteAt, preserves.kept _ _ f (by omega) reached, Option.map_some]
  rw [preserves.bytes _ _ _ deep (by rw [frame_of_byte (offsetOf_lt _), reached])]

/-- A WRITE that returns 0 holds its byte. -/
theorem Machine.Owned.run_write_holds (owned : m.Owned n) {arg0 arg1 arg2 arg3 : Addr}
    (next : (m.procs P).text[(m.procs P).pc]? = some ⟨.write, arg0, arg1, arg2, arg3⟩)
    (completed : m.run env runningList P = .ok (m', 0)) :
    m'.Holds P (arg1.setWidth 32) arg2 (arg0.setWidth 8) := by
  have written := m.run_write env runningList next
  dsimp only at written
  rw [completed] at written
  obtain ⟨rfl, status⟩ := Prod.mk.inj (Except.ok.inj written)
  have step : Machine.Step env.driver (m.advance P) _ _ :=
    (m.advance P).step_write P (arg0.setWidth 8) (arg1.setWidth 32) arg2
  refine step.write_holds (owned.advance P) rfl ⟨none, ?_⟩
  exact congrArg (fun status => some (Reply.mk status none)) status.symm

/-- In every run of intact requests the frame of a page lies in RAM and has no other role. A further step
leaves every page its frame and takes the frame of a new page from the free list. A byte that WRITE
stored is what READ returns, also after any number of system calls 17. -/
theorem run_pages_intact {labels : List (ι × List ι)} (initial : m.Initial n) (small : n ≤ 8192)
    (run : Run (guarded Machine.Intact (Machine.Exec env)) m labels now) :
    (∀ P pgn f, now.frameOf (.page P pgn) = some f → f < now.mram.maxsz / pagingPagesz ∧
      ∀ role, now.frameOf role = some f → role = .page P pgn) ∧
    (∀ label after, guarded Machine.Intact (Machine.Exec env) now label after →
      (∀ P pgn f, now.frameOf (.page P pgn) = some f → after.frameOf (.page P pgn) = some f) ∧
      (∀ P pgn f, now.frameOf (.page P pgn) = none → after.frameOf (.page P pgn) = some f →
        f ∈ now.mram.freeFpList) ∧
      (now.Memmap label.1 → ∀ P r off v, now.Holds P r off v → after.Holds P r off v)) ∧
    (∀ P list after arg0 arg1 arg2 arg3,
      (now.procs P).text[(now.procs P).pc]? = some ⟨.write, arg0, arg1, arg2, arg3⟩ →
      now.run env list P = .ok (after, 0) → after.Holds P (arg1.setWidth 32) arg2 (arg0.setWidth 8)) ∧
    ∀ P r off v, now.Holds P r off v →
      Libmem.read env.driver (now.task P).krnl 0 r off = ((now.task P).krnl, some v) := by
  have owned : now.Owned n := (initial.owned small).intact_run run
  refine ⟨?_, ?_, ?_, ?_⟩
  · intro P pgn f page
    refine ⟨?_, fun role fills => owned.role_unique fills page⟩
    have deep := pagePath_length (pgn.setWidth 64)
    rw [owned.frameOf_page] at page
    rw [owned.frames.size, Nat.mul_div_cancel n (by decide)]
    exact owned.frames.used_lt f ⟨_, _, by omega, page⟩
  · rintro label after ⟨intact, step⟩
    have carries := step.carries owned intact
    refine ⟨fun P pgn f => carries.page owned, fun P pgn f => carries.new_page owned, ?_⟩
    intro memmap P r off v holds
    obtain ⟨preserves, tables⟩ := step.preserves owned intact memmap
    exact preserves.holds (tables P) holds
  · intro P list after arg0 arg1 arg2 arg3 next completed
    exact owned.run_write_holds next completed
  · intro P r off v holds
    exact holds.read env.driver owned

/-- One process on 16 frames that writes a byte and then issues system call 17. -/
def Machine.beforeMemmap (memop a2 a3 : Addr) : Machine Unit :=
  Machine.boot 16 (fun _ => 1) fun _ => [⟨.write, 7, 3, 0, 0⟩, ⟨.syscall, 17, memop, a2, a3⟩]

/-- The machine after the write. -/
def Machine.atMemmap (memop a2 a3 : Addr) : Machine Unit :=
  let m := (Machine.beforeMemmap memop a2 a3).advance ()
  m.put () ((m.task ()).setKrnl (Libmem.write .head (m.task ()).krnl 0 ((3 : Addr).setWidth 32) 0 ((7 : Addr).setWidth 8)).1)

private theorem Machine.run_beforeMemmap (memop a2 a3 : Addr) :
    ∃ status, (Machine.beforeMemmap memop a2 a3).run ⟨.head, fun _ => 0⟩ [()] () =
      .ok (Machine.atMemmap memop a2 a3, status) := by
  rw [Machine.atMemmap]
  exact ⟨_, Machine.run_write _ [()] rfl⟩

private theorem Machine.atMemmap_fresh (memop a2 a3 : Addr) : Machine.atMemmap memop a2 a3 =
    let m := (Machine.beforeMemmap memop a2 a3).advance ()
    m.put () ((m.task ()).setKrnl (((Libmem.target (m.task ()).krnl 0 ((3 : Addr).setWidth 32) 0).1.freshPage 16
      (pageOf ((4096 : Addr).setWidth 32))).storeByte 0 (offsetOf ((4096 : Addr).setWidth 32)) ((7 : Addr).setWidth 8))) := by
  let m := (Machine.beforeMemmap memop a2 a3).advance ()
  have opened : (Libmem.target (m.task ()).krnl 0 ((3 : Addr).setWidth 32) 0).2 = some 4096 := by
    change (Libmem.target ⟨initMm ⟨fun _ => 0, [], fun _ => 0⟩, initMemphy 16 fun _ => 0⟩ 0 _ 0).2 = _
    decide
  have written := Libmem.write_fresh (n := 16) ⟨fun _ => rfl, rfl⟩ (by decide) .head ((7 : Addr).setWidth 8) opened
  simp only [m] at written
  simp only [Machine.atMemmap, written]

/-- A request to map no pages. -/
theorem run_pages_intact_nothing_mapped : let env : Env := ⟨.head, fun _ => 0⟩
    let now := Machine.atMemmap 1 4096 0
    now.frameOf (.page () 1) = some 0 ∧ ∃ after, now.run env [()] () = .ok (after, 0) ∧
      after.frameOf (.page () 1) = some 0 := by
  intro env now
  let m := now.advance ()
  let after := m.put () ((m.task ()).setKrnl (Machine.sysmemMap (m.task ()).krnl 4096 0))
  have initial : (Machine.beforeMemmap 1 4096 0).Initial 16 := Machine.boot_initial 16 _ _
  have write : (Machine.beforeMemmap 1 4096 0).Intact ((), [()]) := by
    rintro ins ⟨⟩ ⟨⟩
  have call : now.Intact ((), [()]) := by
    rintro ins ⟨⟩ - - caller - -
    exact .inl (by decide)
  have page : now.frameOf (.page () 1) = some 0 := by
    simp only [now, Machine.atMemmap_fresh]
    decide +kernel
  have step : now.run env [()] () = .ok (after, 0) := rfl
  have kept := (run_pages_intact initial (by decide) (.one ⟨write, Machine.run_beforeMemmap 1 4096 0⟩)).2.1
  exact ⟨page, after, step, (kept ((), [()]) after ⟨call, 0, step⟩).1 () 1 0 page⟩

/-- The page in frame 0 holds a byte; `SYSMEM_MAP_OP` on its address leaves it in frame 7919 of 16, and the
byte cannot be read. -/
theorem memmap_replaces_frame : let env : Env := ⟨.head, fun _ => 0⟩
    let now := Machine.atMemmap 1 4096 1
    Run (Machine.Exec env) (Machine.beforeMemmap 1 4096 1) [((), [()])] now ∧
      now.frameOf (.page () 1) = some 0 ∧ (Libmem.read .head (now.task ()).krnl 0 3 0).2 = some 7 ∧
      ∃ after, now.run env [()] () = .ok (after, 0) ∧ after.frameOf (.page () 1) = some 7919 ∧
        ¬7919 < after.mram.maxsz / pagingPagesz ∧ (Libmem.read .head (after.task ()).krnl 0 3 0).2 = none := by
  intro env now
  let m := now.advance ()
  let after := m.put () ((m.task ()).setKrnl (Machine.sysmemMap (m.task ()).krnl 4096 1))
  have page : now.frameOf (.page () 1) = some 0 ∧ (Libmem.read .head (now.task ()).krnl 0 3 0).2 = some 7 := by
    simp only [now, Machine.atMemmap_fresh]
    decide +kernel
  have replaced : after.frameOf (.page () 1) = some 7919 ∧ ¬7919 < after.mram.maxsz / pagingPagesz ∧
      (Libmem.read .head (after.task ()).krnl 0 3 0).2 = none := by
    simp only [after, m, now, Machine.atMemmap_fresh]
    decide +kernel
  exact ⟨.one (Machine.run_beforeMemmap 1 4096 1), page.1, page.2, after, rfl, replaced⟩

end SimpleOS.Model
