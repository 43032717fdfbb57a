import Mathlib.Data.List.Perm.Subperm
import SimpleOS.Proofs.Instructions

/-! # Frames are taken and not given back

The free list of the RAM loses frames to page tables and pages. The one call of `MEMPHY_put_freefp` gives
back the frame that `pg_getpage` has just taken for itself, so no routine, no instruction and no system
call leaves a frame on the list that was not there before.
-/

namespace SimpleOS.Model

/-- The free frames of `mp'` are among those of `mp`. -/
def Memphy.Spends (mp mp' : Memphy) : Prop := mp'.freeFpList.Subperm mp.freeFpList

namespace Memphy.Spends

variable {mp mp' mp'' : Memphy}

theorem refl (mp : Memphy) : mp.Spends mp := List.Subperm.refl _

theorem trans (first : mp.Spends mp') (second : mp'.Spends mp'') : mp.Spends mp'' :=
  List.Subperm.trans second first

private theorem of_eq (same : mp'.freeFpList = mp.freeFpList) : mp.Spends mp' := by
  rw [Spends, same]

private theorem getFreefp {fpn : ℕ} (taken : mp.getFreefp = some (fpn, mp')) : mp.Spends mp' := by
  rw [Memphy.getFreefp] at taken
  split at taken
  · cases taken
  · rename_i free
    cases taken
    rw [Spends, free]
    exact (List.sublist_cons_self _ _).subperm

/-- A frame that is taken first may be given back last. -/
private theorem putFreefp {fpn : ℕ} (driver : Driver) (taken : mp.getFreefp = some (fpn, mp'))
    (spends : mp'.Spends mp'') : mp.Spends (mp''.putFreefp driver fpn) := by
  rw [Memphy.getFreefp] at taken
  split at taken
  · cases taken
  · rename_i free
    cases taken
    rw [Spends, free]
    exact (driver.put_perm _ _).subperm.trans ((List.subperm_cons fpn).mpr spends)

end Memphy.Spends

private theorem ensurePgd_spends (k : Krnl) (i : Fin 512) : k.mram.Spends (ensurePgd k i).1.mram := by
  rw [ensurePgd]
  split_ifs with present
  · exact .refl _
  · cases taken : k.mram.getFreefp with
    | none => exact .refl _
    | some popped => exact (Memphy.Spends.getFreefp taken).trans (.of_eq (by simp))

private theorem ensureTable_spends (k : Krnl) (table : ℕ) (i : Fin 512) :
    k.mram.Spends (ensureTable k table i).1.mram := by
  rw [ensureTable]
  split_ifs with present
  · exact .refl _
  · cases taken : k.mram.getFreefp with
    | none => exact .refl _
    | some popped => exact (Memphy.Spends.getFreefp taken).trans (.of_eq (by simp))

private theorem thenTable_spends {mp : Memphy} {result : Krnl × Option ℕ} {next : Krnl → ℕ → Krnl × Option ℕ}
    (first : mp.Spends result.1.mram)
    (later : ∀ (k : Krnl) (table : ℕ), k.mram.Spends (next k table).1.mram) :
    mp.Spends (thenTable result next).1.mram := by
  obtain ⟨k', _ | table⟩ := result
  · exact first
  · exact first.trans (later k' table)

private theorem pteSetFpn_spends (k : Krnl) (pgn : Addr) (fpn : ℕ) : k.mram.Spends (pteSetFpn k pgn fpn).1.mram := by
  simp only [pteSetFpn, getPdFromPagenum_eq]
  have mapped : k.mram.Spends (ensurePteMapping k (pdOf pgn)).1.mram :=
    thenTable_spends (ensurePgd_spends k _) fun k p4d =>
      thenTable_spends (ensureTable_spends k p4d _) fun k pud =>
        thenTable_spends (ensureTable_spends k pud _) fun k pmd => ensureTable_spends k pmd _
  generalize ensurePteMapping k (pdOf pgn) = result at mapped
  obtain ⟨k', _ | table⟩ := result
  · exact mapped
  · exact mapped

private theorem pgGetpage_spends (driver : Driver) (k : Krnl) (pgn : BitVec 32) :
    k.mram.Spends (pgGetpage driver k pgn).1.mram := by
  simp only [pgGetpage]
  split_ifs with range present
  · exact .refl _
  · exact .refl _
  · cases taken : k.mram.getFreefp with
    | none => exact .refl _
    | some popped =>
      obtain ⟨fpn, mram⟩ := popped
      have spends : mram.Spends (pteSetFpn { k with mram } (pgn.signExtend 64) fpn).1.mram :=
        pteSetFpn_spends { k with mram } _ fpn
      simp only
      generalize pteSetFpn { k with mram } (pgn.signExtend 64) fpn = result at spends
      obtain ⟨k', status⟩ := result
      simp only
      split_ifs with mapped
      · exact (Memphy.Spends.getFreefp taken).trans spends
      · exact .putFreefp driver taken spends

private theorem pgGetval_spends (driver : Driver) (k : Krnl) (addr : BitVec 32) :
    k.mram.Spends (pgGetval driver k addr).1.mram := by
  have spends := pgGetpage_spends driver k (pagingPgn addr)
  rw [pgGetval]
  generalize pgGetpage driver k (pagingPgn addr) = result at spends
  obtain ⟨k', _ | fpn⟩ := result
  · exact spends
  · exact spends

private theorem Memphy.write_spends {mp mp' : Memphy} {addr : ℕ} {data : BitVec 8}
    (written : mp.write addr data = some mp') : mp.Spends mp' := by
  rw [Memphy.write] at written
  split_ifs at written
  cases written
  exact .of_eq rfl

private theorem pgSetval_spends (driver : Driver) (k : Krnl) (addr : BitVec 32) (value : BitVec 8) :
    k.mram.Spends (pgSetval driver k addr value).1.mram := by
  have spends := pgGetpage_spends driver k (pagingPgn addr)
  rw [pgSetval]
  generalize pgGetpage driver k (pagingPgn addr) = result at spends
  obtain ⟨k', _ | fpn⟩ := result
  · exact spends
  · simp only
    cases written : k'.mram.write (fpn * pagingPagesz + (pagingOffst addr).toNat) value with
    | none => exact spends
    | some mram => exact spends.trans (Memphy.write_spends written)

namespace Libmem

private theorem read_spends (driver : Driver) (k : Krnl) (rgid : BitVec 32) (offset : Addr) :
    k.mram.Spends (read driver k 0 rgid offset).1.mram := by
  have opened := (target_opened k rgid offset).1.mram
  rw [read]
  generalize target k 0 rgid offset = result at opened
  obtain ⟨k', _ | addr⟩ := result
  · exact .of_eq (congrArg Memphy.freeFpList opened)
  · exact opened ▸ pgGetval_spends driver k' _

private theorem write_spends (driver : Driver) (k : Krnl) (rgid : BitVec 32) (offset : Addr) (value : BitVec 8) :
    k.mram.Spends (write driver k 0 rgid offset value).1.mram := by
  have opened := (target_opened k rgid offset).1.mram
  rw [write]
  generalize target k 0 rgid offset = result at opened
  obtain ⟨k', _ | addr⟩ := result
  · exact .of_eq (congrArg Memphy.freeFpList opened)
  · exact opened ▸ pgSetval_spends driver k' _ value

end Libmem

private theorem Call.kernel_spends (driver : Driver) (k : Krnl) (call : Call) :
    k.mram.Spends (call.kernel driver k).mram := by
  cases call with
  | alloc size reg => exact .of_eq (congrArg Memphy.freeFpList (Libmem.alloc_memory k reg size).2)
  | free reg => exact .of_eq (congrArg Memphy.freeFpList (Libmem.free_memory k reg).2)
  | read source offset => exact Libmem.read_spends driver k source offset
  | write data destination offset => exact Libmem.write_spends driver k destination offset data
  | inc a2 a3 => exact .of_eq (congrArg Memphy.freeFpList (sysmemInc_memory k a2 a3).2)

private theorem vmapPgdMemsetLoop_spends (addr : Addr) (k : Krnl) (pgnum : ℕ) :
    k.mram.Spends (vmapPgdMemsetLoop addr k pgnum).mram := by
  induction pgnum with
  | zero => exact .refl _
  | succ pgit ih => exact ih.trans (pteSetFpn_spends _ _ _)

namespace Machine

variable {ι : Type} [DecidableEq ι] {m m' : Machine ι} {env : Env} {P : ι} {runningList : List ι}
  {status : Int}

private theorem Served.spends {nr : BitVec 32} {a1 a2 a3 : Addr} (served : Served env m runningList P nr a1 a2 a3 m') :
    m.mram.Spends m'.mram := by
  cases served with
  | nothing => exact .refl m.mram
  | @mapped caller => exact vmapPgdMemsetLoop_spends _ (m.task caller).krnl _
  | @grown caller _ _ _ => exact .of_eq (congrArg Memphy.freeFpList (sysmemInc_memory (m.task caller).krnl a2 a3).2)
  | swapped =>
    rw [mmSwapPage_mram]
    exact .refl m.mram

/-- No instruction leaves a frame free that was not free before. -/
theorem run_spends (completed : m.run env runningList P = .ok (m', status)) : m.mram.Spends m'.mram := by
  obtain ⟨-, rfl⟩ | ⟨ins, -, executed⟩ := Machine.run_cases completed
  · exact .refl _
  obtain ⟨-, rfl⟩ | ⟨call, t, -, rfl, stored⟩ | ⟨-, served⟩ := Machine.execute_cases executed
  · exact .refl _
  · have same : t.mram = t.krnl.mram := rfl
    change m.mram.Spends t.mram
    obtain routine | ⟨-, unchanged⟩ := stored
    · rw [same, routine]
      exact call.kernel_spends env.driver ((m.advance P).task P).krnl
    · rw [same, unchanged]
      exact .refl _
  · exact served.spends

end Machine

end SimpleOS.Model
