import SimpleOS.Proofs.Headers
import SimpleOS.Soundness.FailedAccess

/-! # Indices on the register file

ALLOC, FREE and READ index `proc->regs` with arguments of the program. The only check on the way is the
one of `__alloc` and `__read` against the 30 symbols, so an index from 10 on reaches the array whenever
the request itself is served; FREE reads the register before any check.

Whether a READ is served depends on the symbol, the offset and the page. All three are read off the state before the
instruction.
-/

namespace SimpleOS.Model

open Lib

variable {ι : Type} [DecidableEq ι] {m m' now : Machine ι} {env : Env} {P : ι} {ins : Inst} {runningList : List ι}
  {others : ι → Fin 512 → Addr} {k k' : Krnl} {driver : Driver} {n : ℕ} {addr offset : Addr} {rgid : BitVec 32}
  {slot : Fin 30}

/-- The tables are distinct frames of RAM that are not free, and frame 0 is not behind the head of the free list. -/
def Krnl.TablesOwned (others : ι → Fin 512 → Addr) (P : ι) (k : Krnl) : Prop :=
  (∃ n, Frames 4 n (k.links others P) k.mram []) ∧ 0 ∉ k.mram.freeFpList.tail

/-- The page of an address has a frame and the byte there is outside RAM; or the page has no frame and can get none. -/
def Krnl.NoByte (others : ι → Fin 512 → Addr) (P : ι) (k : Krnl) (addr : Addr) : Prop :=
  let pte := pteGetEntry k (pageOf (addr.setWidth 32))
  if pagingPtePresent pte then k.mram.maxsz ≤ pagingPteFpn pte * pagingPagesz + offsetOf (addr.setWidth 32)
  else k.mram.freeFpList = [] ∨ k.TablesOwned others P ∧ ¬k.Affords others P (pageOf (addr.setWidth 32))

/-- The region in which `__read` looks up an offset: the one of the symbol, or the one of 100 bytes that it gets. -/
def MmStruct.readRegion (mm : MmStruct) (slot : Fin 30) : VmRg :=
  if (mm.symrgtbl slot).Live then mm.symrgtbl slot else ⟨mm.regions.top, mm.regions.top + 100⟩

/-- The symbol names no slot, the offset is outside its region, or there is no byte there. -/
def Krnl.ReadRefused (others : ι → Fin 512 → Addr) (P : ι) (k : Krnl) (rgid : BitVec 32) (offset : Addr) : Prop :=
  ∀ slot, symIndex rgid = some slot →
    let rg := k.mm.readRegion slot
    rg.rgEnd ≤ rg.rgStart ∨ rg.rgEnd - rg.rgStart ≤ offset ∨ k.NoByte others P (rg.rgStart + offset)

/-- The instruction names a register below 10, or `__alloc` or `__read` refuses it. -/
def Krnl.SafeIndex (others : ι → Fin 512 → Addr) (P : ι) (k : Krnl) (ins : Inst) : Prop :=
  match ins.opcode with
  | .alloc => (ins.arg1.setWidth 32).toNat < 10 ∨
      ∀ slot, symIndex (ins.arg1.setWidth 32) = some slot → (k.mm.symrgtbl slot).Live
  | .free => (ins.arg0.setWidth 32).toNat < 10
  | .read => ins.arg2.toNat < 10 ∨ k.ReadRefused others P (ins.arg0.setWidth 32) ins.arg1
  | _ => True

/-- The next instruction of the process is safe. -/
def Machine.SafeIndex (m : Machine ι) (label : ι × List ι) : Prop :=
  ∀ ins, (m.procs label.1).text[(m.procs label.1).pc]? = some ins → (m.task label.1).krnl.SafeIndex m.roots label.1 ins

/-- The call of `run` uses no index from 10 on, and around `proc->regs` it moves one program counter by one step and
nothing else. -/
def Machine.RegsIntact (env : Env) (m : Machine ι) (label : ι × List ι) : Prop :=
  (∀ index, m.run env label.2 label.1 ≠ .error (.regs index)) ∧
  ∀ m' status, m.run env label.2 label.1 = .ok (m', status) → ∀ Q, (m'.procs Q).header =
    if Q = label.1 ∧ (m.procs Q).pc < (m.procs Q).text.length then
      { (m.procs Q).header with pc := (m.procs Q).pc + 1 }
    else (m.procs Q).header

/-- A page without a frame gets none exactly when its path cannot be completed. -/
private theorem pgGetpage_none (tables : k.TablesOwned others P) {pgn : BitVec 32}
    (inRange : ¬(pgn.toInt < 0 ∨ (pagingMaxPgn : Int) ≤ pgn.toInt))
    (absent : pagingPtePresent (pteGetEntry k (pgn.signExtend 64)) = false) :
    (pgGetpage driver k pgn).2 = none ↔ ¬k.Affords others P (pgn.signExtend 64) := by
  obtain ⟨⟨n, frames⟩, zero⟩ := tables
  cases pop : k.mram.freeFpList with
  | nil =>
    have nothing : pgGetpage driver k pgn = (k, none) := by
      simp [pgGetpage, absent, Memphy.getFreefp, pop]
    exact iff_of_true (congrArg Prod.snd nothing) (by simp [Krnl.Affords, pop])
  | cons g rest =>
    let popped : Krnl := { k with mram := { k.mram with freeFpList := rest } }
    have perm : ([g] ++ rest).Perm ([] ++ k.mram.freeFpList) := by
      rw [pop]
      exact List.Perm.refl _
    have frames' : Frames 4 n (popped.links others P) popped.mram [g] := frames.reflight rfl perm
    have nonzero : 0 ∉ popped.mram.freeFpList := by rwa [pop] at zero
    have walk := ensurePteMapping_walk frames' (pdOf (pgn.signExtend 64)) (usable_of_nonzero nonzero)
    rcases built : ensurePteMapping popped (pdOf (pgn.signExtend 64)) with ⟨grown, table⟩
    rw [built] at walk
    have affords : k.Affords others P (pgn.signExtend 64) ↔ table.isSome := by
      rw [Krnl.Affords, pop, List.length_cons, Nat.lt_succ_iff]
      exact walk.built.succeeds.symm
    rw [affords, pgGetpage_fault_eq driver inRange absent pop built]
    cases table <;> simp

/-- Where there is no byte, `pg_getval` delivers none. -/
private theorem Krnl.NoByte.pgGetval (noByte : k.NoByte others P addr) :
    (pgGetval driver k (addr.setWidth 32)).2 = none := by
  have inRange := pagingPgn_inRange (addr.setWidth 32)
  rw [Krnl.NoByte] at noByte
  rw [Model.pgGetval]
  cases present : pagingPtePresent (pteGetEntry k (pageOf (addr.setWidth 32))) with
  | true =>
    rw [present, if_pos rfl] at noByte
    have found : pgGetpage driver k (pagingPgn (addr.setWidth 32)) =
        (k, some (pagingPteFpn (pteGetEntry k (pageOf (addr.setWidth 32))))) := by
      rw [pageOf] at present ⊢
      simp only [pgGetpage, if_neg inRange, present, if_true]
    rw [found]
    exact if_neg (Nat.not_lt.mpr noByte)
  | false =>
    rw [present, if_neg Bool.false_ne_true] at noByte
    have nothing : (pgGetpage driver k (pagingPgn (addr.setWidth 32))).2 = none := by
      rcases noByte with empty | ⟨tables, short⟩
      · rw [pageOf] at present
        simp [pgGetpage, present, Memphy.getFreefp, empty]
      · exact (pgGetpage_none tables inRange present).mpr short
    generalize pgGetpage driver k (pagingPgn (addr.setWidth 32)) = result at nothing
    obtain ⟨k', rfl⟩ : ∃ k', result = (k', none) := ⟨result.1, Prod.ext rfl nothing⟩
    rfl

/-- While RAM is in order, these are the only look-ups without a byte. -/
private theorem Owned.noByte (owned : Owned n (k.links others P) k.mram)
    (nothing : (pgGetval driver k (addr.setWidth 32)).2 = none) : k.NoByte others P addr := by
  have ends := (pgGetval_ends owned driver (addr.setWidth 32)).succeeds
  rw [nothing, Option.isSome_none] at ends
  have failed : ¬(pagingPtePresent (pteGetEntry k (pageOf (addr.setWidth 32))) = true ∨
      k.Affords others P (pageOf (addr.setWidth 32))) := fun found => Bool.false_ne_true (ends.mpr found)
  rw [Krnl.NoByte, if_neg fun present => failed (.inl present)]
  exact .inr ⟨⟨⟨n, owned.frames.mono (by omega)⟩, owned.zero⟩, fun affords => failed (.inr affords)⟩

/-- `__read` with its checks against the region of the symbol. -/
private theorem read_checked (driver : Driver) (k : Krnl) (offset : Addr) (index : symIndex rgid = some slot) :
    let rg := k.mm.readRegion slot
    ∃ k', (k' = k ∨ k' = k.placed slot 100) ∧ Libmem.read driver k 0 rgid offset =
      if rg.rgEnd ≤ rg.rgStart ∨ rg.rgEnd - rg.rgStart ≤ offset then (k', none)
      else pgGetval driver k' ((rg.rgStart + offset).setWidth 32) := by
  intro rg
  have located : ∀ k', k'.mm.symrgtbl slot = rg → Libmem.target k 0 rgid offset = (k', Libmem.locate k' slot offset) →
      Libmem.read driver k 0 rgid offset =
        if rg.rgEnd ≤ rg.rgStart ∨ rg.rgEnd - rg.rgStart ≤ offset then (k', none)
        else pgGetval driver k' ((rg.rgStart + offset).setWidth 32) := by
    intro k' region target
    rw [Libmem.read, target, Libmem.locate, region]
    by_cases empty : rg.rgEnd ≤ rg.rgStart
    · simp only [empty, true_or, if_true]
    · by_cases beyond : rg.rgEnd - rg.rgStart ≤ offset
      · simp only [empty, beyond, or_true, if_true, if_false]
      · simp only [empty, beyond, or_self, if_false]
  by_cases live : (k.mm.symrgtbl slot).Live
  · refine ⟨k, .inl rfl, located k (if_pos live).symm ?_⟩
    simp only [Libmem.target, index, if_pos live]
  · refine ⟨k.placed slot 100, .inr rfl, located _ ?_ (Libmem.target_free offset index live)⟩
    exact (Function.update_self ..).trans (if_neg live).symm

/-- A refused READ delivers no byte. -/
private theorem Krnl.ReadRefused.read (refused : k.ReadRefused others P rgid offset) :
    (Libmem.read driver k 0 rgid offset).2 = none := by
  cases index : symIndex rgid with
  | none => simp [Libmem.read, Libmem.target, index]
  | some slot =>
    obtain ⟨k', same, checked⟩ := read_checked driver k offset index
    rw [checked]
    split_ifs with outside
    · rfl
    · have noByte : k.NoByte others P _ := (or_assoc.mpr (refused slot index)).resolve_left outside
      rcases same with rfl | rfl
      · exact noByte.pgGetval
      · exact Krnl.NoByte.pgGetval (k := k.placed slot 100) noByte

/-- While RAM is in order, these are the only READs that deliver no byte. -/
private theorem Owned.readRefused (owned : Owned n (k.links others P) k.mram)
    (nothing : (Libmem.read driver k 0 rgid offset).2 = none) : k.ReadRefused others P rgid offset := by
  intro slot index rg
  obtain ⟨k', same, checked⟩ := read_checked driver k offset index
  rw [checked] at nothing
  apply or_assoc.mp
  by_cases outside : rg.rgEnd ≤ rg.rgStart ∨ rg.rgEnd - rg.rgStart ≤ offset
  · exact .inl outside
  · rw [if_neg outside] at nothing
    rcases same with rfl | rfl
    · exact .inr (owned.noByte nothing)
    · exact .inr (Owned.noByte (k := k.placed slot 100) owned nothing)

/-- A safe index keeps an instruction inside `proc->regs`; while RAM is in order, no other does. -/
private theorem Krnl.SafeIndex.regSafe (safe : k.SafeIndex others P ins) : k.RegSafe driver ins := by
  obtain ⟨opcode, arg0, arg1, arg2, arg3⟩ := ins
  cases opcode with
  | read => exact safe.imp_right Krnl.ReadRefused.read
  | alloc => exact safe
  | free => exact safe
  | «calc» => trivial
  | write => trivial
  | syscall => trivial

private theorem Owned.safeIndex_iff (owned : Owned n (k.links others P) k.mram) :
    k.SafeIndex others P ins ↔ k.RegSafe driver ins := by
  refine ⟨Krnl.SafeIndex.regSafe, fun safe => ?_⟩
  obtain ⟨opcode, arg0, arg1, arg2, arg3⟩ := ins
  cases opcode with
  | read => exact safe.imp_right owned.readRefused
  | alloc => exact safe
  | free => exact safe
  | «calc» => trivial
  | write => trivial
  | syscall => trivial

/-- One call of `run` keeps to the register file exactly when its instruction does. -/
private theorem Machine.regsIntact_iff (m : Machine ι) (label : ι × List ι) : m.RegsIntact env label ↔
    ∀ ins, (m.procs label.1).text[(m.procs label.1).pc]? = some ins →
      (m.task label.1).krnl.RegSafe env.driver ins := by
  constructor
  · rintro ⟨inside, -⟩ ins next
    by_contra unsafe_index
    rw [← m.advance_krnl label.1] at unsafe_index
    have fails : ∃ index, (m.advance label.1).execute env label.2 label.1 ins = .error (.regs index) :=
      ((m.advance label.1).execute_regs_iff ins).mpr unsafe_index
    obtain ⟨index, failed⟩ := fails
    apply inside index
    rw [Machine.run, next]
    exact failed
  · intro safe
    refine ⟨fun index failed => ?_, fun m' status completed Q => ?_⟩
    · rw [Machine.run] at failed
      cases next : (m.procs label.1).text[(m.procs label.1).pc]? with
      | none =>
        rw [next] at failed
        cases failed
      | some ins =>
        rw [next] at failed
        have fails : ∃ index, (m.advance label.1).execute env label.2 label.1 ins = .error (.regs index) :=
          ⟨index, failed⟩
        refine ((m.advance label.1).execute_regs_iff ins).mp fails ?_
        rw [m.advance_krnl]
        exact safe ins next
    · obtain ⟨ended, rfl⟩ | ⟨ins, next, headers⟩ := Machine.run_header completed
      · rw [if_neg]
        rintro ⟨rfl, inside⟩
        exact absurd (List.getElem?_eq_none_iff.mp ended) (Nat.not_le.mpr inside)
      · rw [headers Q]
        have inside := (List.getElem?_eq_some_iff.mp next).1
        by_cases here : Q = label.1
        · rw [if_pos here, if_pos ⟨here, here ▸ inside⟩, here]
        · rw [if_neg here, if_neg fun both => here both.1]

/-- Every process has the pid, the code and the priority that it had. -/
def Machine.SameIdentities (m m' : Machine ι) : Prop :=
  ∀ Q, (m'.procs Q).pid = (m.procs Q).pid ∧ (m'.procs Q).text = (m.procs Q).text ∧ (m'.procs Q).prio = (m.procs Q).prio

private theorem Exec.sameIdentities {label : ι × List ι} (step : Machine.Exec env m label m') :
    m.SameIdentities m' := by
  obtain ⟨status, completed⟩ := step
  intro Q
  obtain ⟨-, rfl⟩ | ⟨ins, -, headers⟩ := Machine.run_header completed
  · exact ⟨rfl, rfl, rfl⟩
  · have header := headers Q
    split_ifs at header with here
    · rw [here] at header ⊢
      exact ⟨congrArg Header.pid header, congrArg Header.text header, congrArg Header.prio header⟩
    · exact ⟨congrArg Header.pid header, congrArg Header.text header, congrArg Header.prio header⟩

/-- In every run of safe instructions all processes keep pid, code and priority, and every further safe instruction
stays inside `proc->regs`. In every run of intact requests the further instructions that stay inside are the safe
ones. -/
theorem run_regs_intact_iff (initial : m.Initial n) (frames : n ≤ 8192) :
    (∀ labels now, Run (guarded Machine.SafeIndex (Machine.Exec env)) m labels now →
      m.SameIdentities now ∧ ∀ label, now.SafeIndex label → now.RegsIntact env label) ∧
    ∀ labels now, Run (guarded Machine.Intact (Machine.Exec env)) m labels now →
      ∀ label, now.RegsIntact env label ↔ now.SafeIndex label := by
  refine ⟨fun labels now run => ⟨?_, fun label safe => ?_⟩, fun labels now run label => ?_⟩
  · apply run.keeps (fun Q => ⟨rfl, rfl, rfl⟩ : m.SameIdentities m)
    rintro before label after same ⟨-, step⟩ Q
    obtain ⟨pid, text, prio⟩ := same Q
    obtain ⟨pid', text', prio'⟩ := Exec.sameIdentities step Q
    exact ⟨pid'.trans pid, text'.trans text, prio'.trans prio⟩
  · exact (now.regsIntact_iff label).mpr fun ins next => (safe ins next).regSafe
  · have owned : now.Owned n := (initial.owned frames).intact_run run
    rw [Machine.regsIntact_iff, Machine.SafeIndex]
    exact forall₂_congr fun ins _ => (owned.krnl label.1).safeIndex_iff.symm

/-- `write 102 2 20` and then `read 2 200 20`: register 20 is named, but the offset lies outside the region. -/
theorem run_regs_intact_refused :
    let env : Env := ⟨.head, fun _ => 0⟩
    let m := Machine.boot 16 (fun _ : Unit => 1) fun _ => [⟨.write, 102, 2, 20, 0⟩, ⟨.read, 2, 200, 20, 0⟩]
    ∃ now, Machine.Exec env m ((), [()]) now ∧ now.RegsIntact env ((), [()]) := by
  intro env m
  let m₁ := m.advance ()
  let result := Libmem.write .head (m₁.task ()).krnl 0 ((2 : Addr).setWidth 32) 20 ((102 : Addr).setWidth 8)
  let now := m₁.put () ((m₁.task ()).setKrnl result.1)
  have opened : (Libmem.target (m₁.task ()).krnl 0 ((2 : Addr).setWidth 32) 20).2 = some 4116 := by decide
  have written : result = _ := Libmem.write_fresh (n := 16) ⟨fun _ => rfl, rfl⟩ (by decide) .head _ opened
  have first : Machine.Exec env m ((), [()]) now := Machine.exec_write env [()] rfl rfl
  have write : m.Intact ((), [()]) := by
    rintro ins ⟨⟩ ⟨⟩
  have region : ((now.task ()).krnl.mm.readRegion 2) = ⟨4096, 4196⟩ := by
    simp only [now, written]
    decide +kernel
  have safe : now.SafeIndex ((), [()]) := by
    rintro ins ⟨⟩
    have beyond : ((now.task ()).krnl.mm.readRegion 2).rgEnd - ((now.task ()).krnl.mm.readRegion 2).rgStart ≤ 200 := by
      rw [region]
      decide
    refine .inr ?_
    rintro slot ⟨⟩
    exact .inr (.inl beyond)
  have intact := (run_regs_intact_iff (Machine.boot_initial 16 _ _) (by decide)).2 _ now (.one ⟨write, first⟩) ((), [()])
  exact ⟨now, first, intact.mpr safe⟩

/-- `write 102 2 20` and `read 2 20 20`: the byte read is stored in `regs[20]`. -/
theorem read_leaves_regs :
    let env : Env := ⟨.head, fun _ => 0⟩
    let m := Machine.boot 16 (fun _ : Unit => 1) fun _ => [⟨.write, 102, 2, 20, 0⟩, ⟨.read, 2, 20, 20, 0⟩]
    ∃ now, Machine.Exec env m ((), [()]) now ∧ now.run env [()] () = .error (.regs 20) ∧
      ¬now.RegsIntact env ((), [()]) := by
  intro env m
  let m₁ := m.advance ()
  let result := Libmem.write .head (m₁.task ()).krnl 0 ((2 : Addr).setWidth 32) 20 ((102 : Addr).setWidth 8)
  let now := m₁.put () ((m₁.task ()).setKrnl result.1)
  have opened : (Libmem.target (m₁.task ()).krnl 0 ((2 : Addr).setWidth 32) 20).2 = some 4116 := by decide
  have written : result = _ := Libmem.write_fresh (n := 16) ⟨fun _ => rfl, rfl⟩ (by decide) .head _ opened
  have first : Machine.Exec env m ((), [()]) now := Machine.exec_write env [()] rfl rfl
  have delivered : (libread .head ((now.advance ()).task ()) ((2 : Addr).setWidth 32) 20).2 = some 102 := by
    simp only [now, written]
    decide +kernel
  have failed : now.run env [()] () = .error (.regs 20) := by
    have next : (now.procs ()).text[(now.procs ()).pc]? = some ⟨.read, 2, 20, 20, 0⟩ := rfl
    rw [Machine.run, next]
    simp only [Machine.execute, env]
    generalize libread .head ((now.advance ()).task ()) ((2 : Addr).setWidth 32) 20 = answer at delivered
    obtain ⟨t, rfl⟩ : ∃ t, answer = (t, some 102) := ⟨answer.1, Prod.ext rfl delivered⟩
    rfl
  exact ⟨now, first, failed, fun intact => intact.1 20 failed⟩

end SimpleOS.Model
