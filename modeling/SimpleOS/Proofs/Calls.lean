import SimpleOS.Proofs.Paging
import SimpleOS.Proofs.Regions

/-! # Calls on the machine

What one call does to the machine, in two parts: to the regions of its process (`Krnl.Acts`) and to
the memory all processes share (`Krnl.Accessed`). Everything of another process stays as it is.
-/

namespace SimpleOS.Model

open Lib

variable {ι : Type} [DecidableEq ι] {others : ι → Fin 512 → Addr} {P : ι} {k k' : Krnl} {n : ℕ}
  {driver : Driver}

/-- A change outside root directory and RAM leaves the memory as it is. -/
theorem Paged.of_same (pgd : k'.mm.pgd = k.mm.pgd) (mram : k'.mram = k.mram) : Paged others P k k' :=
  .of_storage pgd (congrArg Memphy.storage mram)

theorem Owned.of_same (owned : Owned n (k.links others P) k.mram) (pgd : k'.mm.pgd = k.mm.pgd)
    (mram : k'.mram = k.mram) : Owned n (k'.links others P) k'.mram := by
  simpa only [Krnl.links, rootsOf, pgd, mram] using owned

namespace Libmem

theorem Opened.pgd {rgid : BitVec 32} (opened : Opened k rgid k') : k'.mm.pgd = k.mm.pgd := by
  cases opened <;> rfl

theorem Opened.mram {rgid : BitVec 32} (opened : Opened k rgid k') : k'.mram = k.mram := by
  cases opened <;> rfl

end Libmem

/-- `k'` keeps every frame and every byte of the other processes. -/
structure Spares (others : ι → Fin 512 → Addr) (P : ι) (k k' : Krnl) : Prop where
  foreign : ∀ r path, r.1 ≠ P → path.length < 5 →
    (k'.links others P).frameAt r path = (k.links others P).frameAt r path
  bytes : ∀ r path a, r.1 ≠ P → path.length < 5 →
    (k.links others P).frameAt r path = some (a / pagingPagesz) →
    k'.mram.storage a = k.mram.storage a

theorem Paged.spares (paged : Paged others P k k') : Spares others P k k' :=
  ⟨paged.foreign, fun r path a other short reached => paged.bytes r path a short (.inl other) reached⟩

theorem Spares.trans {k'' : Krnl} (first : Spares others P k k') (second : Spares others P k' k'') :
    Spares others P k k'' where
  foreign r path other short := (second.foreign r path other short).trans (first.foreign r path other short)
  bytes r path a other short reached := by
    rw [second.bytes r path a other short (by rw [first.foreign r path other short, reached]),
      first.bytes r path a other short reached]

theorem Spares.byteAt (spares : Spares others P k k') {Q : ι} (other : Q ≠ P) {pgn : Addr} {off : ℕ}
    (bound : off < pagingPagesz) :
    byteAt (k'.links others P) k'.mram Q pgn off = byteAt (k.links others P) k.mram Q pgn off := by
  have deep := pagePath_length pgn
  rw [Model.byteAt, Model.byteAt, spares.foreign (pageRoot Q pgn) (pagePath pgn) other (by omega)]
  cases reached : (k.links others P).frameAt (pageRoot Q pgn) (pagePath pgn) with
  | none => rfl
  | some f =>
    refine congrArg some (spares.bytes (pageRoot Q pgn) (pagePath pgn) _ other (by omega) ?_)
    rw [frame_of_byte bound, reached]

/-- A byte stored in a page of `P` spares the others. -/
theorem Spares.storeByte (owned : Owned n (k.links others P) k.mram) {pgn : Addr} {f off : ℕ}
    (page : (k.links others P).frameAt (pageRoot P pgn) (pagePath pgn) = some f)
    (bound : off < pagingPagesz) (v : BitVec 8) : Spares others P k (k.storeByte f off v) where
  foreign r path _ short := frameAt_storeByte owned.frames (pagePath_length pgn) page bound v r path short
  bytes r path a other short reached := by
    refine Bytes.writeByte_ne v ?_
    rintro rfl
    rw [frame_of_byte bound] at reached
    have deep := pagePath_length pgn
    obtain ⟨rfl, -⟩ := owned.frames.separated r path _ _ f short (by omega) reached page
    exact other rfl

namespace Libmem

theorem target_paged (owned : Owned n (k.links others P) k.mram) (rgid : BitVec 32) (offset : Addr) :
    Owned n ((target k 0 rgid offset).1.links others P) (target k 0 rgid offset).1.mram ∧
      Paged others P k (target k 0 rgid offset).1 := by
  have opened := (target_opened k rgid offset).1
  exact ⟨owned.of_same opened.pgd opened.mram, .of_same opened.pgd opened.mram⟩

private theorem read_paged (owned : Owned n (k.links others P) k.mram) (rgid : BitVec 32) (offset : Addr) :
    Owned n ((read driver k 0 rgid offset).1.links others P) (read driver k 0 rgid offset).1.mram ∧
      Paged others P k (read driver k 0 rgid offset).1 := by
  obtain ⟨owned', paged⟩ := target_paged owned rgid offset
  rw [read]
  generalize target k 0 rgid offset = result at owned' paged
  rcases result with ⟨k', _ | addr⟩
  · exact ⟨owned', paged⟩
  · obtain ⟨owned'', paged', -⟩ := pgGetval_fetched owned' driver (addr.setWidth 32)
    exact ⟨owned'', paged.trans paged'⟩

/-- `__write` fails without touching a page, or stores its byte in the page of its address. -/
theorem write_cases (driver : Driver) (owned : Owned n (k.links others P) k.mram) (rgid : BitVec 32) (offset : Addr)
    (v : BitVec 8) :
    (∃ k', write driver k 0 rgid offset v = (k', -1) ∧ Owned n (k'.links others P) k'.mram ∧
      Paged others P k k') ∨
    ∃ k' f addr, write driver k 0 rgid offset v = (k'.storeByte f (offsetOf (addr.setWidth 32)) v, 0) ∧
      (target k 0 rgid offset).2 = some addr ∧
      Fetched others P n k (k', some f) (pageOf (addr.setWidth 32)) := by
  obtain ⟨owned', paged⟩ := target_paged owned rgid offset
  rw [write]
  generalize target k 0 rgid offset = result at owned' paged
  rcases result with ⟨opened, _ | addr⟩
  · exact .inl ⟨opened, rfl, owned', paged⟩
  · rcases pgSetval_cases owned' driver (addr.setWidth 32) v with
      ⟨k', failed, owned'', paged'⟩ | ⟨k', f, stored, fetched⟩
    · exact .inl ⟨k', failed, owned'', paged.trans paged'⟩
    · exact .inr ⟨k', f, addr, stored, rfl, fetched.owned, paged.trans fetched.paged, fetched.reached⟩

theorem free_memory (k : Krnl) (rgid : BitVec 32) :
    (free k rgid).1.mm.pgd = k.mm.pgd ∧ (free k rgid).1.mram = k.mram := by
  rcases free_cases k rgid with refused | ⟨slot, -, -, released⟩
  · rw [refused]
    exact ⟨rfl, rfl⟩
  · rw [released]
    exact ⟨rfl, rfl⟩

theorem alloc_memory (k : Krnl) (rgid : BitVec 32) (size : Addr) :
    (alloc k 0 rgid size).1.mm.pgd = k.mm.pgd ∧ (alloc k 0 rgid size).1.mram = k.mram := by
  rcases alloc_cases k rgid size with ⟨refused, -⟩ | ⟨slot, -, -, placed⟩
  · rw [refused]
    exact ⟨rfl, rfl⟩
  · rw [placed]
    exact ⟨rfl, rfl⟩

end Libmem

theorem sysmemInc_memory (k : Krnl) (a2 a3 : Addr) :
    (sysmemInc k a2 a3).1.mm.pgd = k.mm.pgd ∧ (sysmemInc k a2 a3).1.mram = k.mram := by
  rw [sysmemInc, incVmaLimit_eq]
  split_ifs <;> exact ⟨rfl, rfl⟩

/-- A call other than a successful write touches no byte of a page. -/
theorem Call.kernel_cases (owned : Owned n (k.links others P) k.mram) (call : Call) :
    (Owned n ((call.kernel driver k).links others P) (call.kernel driver k).mram ∧
      Paged others P k (call.kernel driver k)) ∨
    ∃ v destination offset k' f addr, call = .write v destination offset ∧
      Libmem.write driver k 0 destination offset v =
        (k'.storeByte f (offsetOf (addr.setWidth 32)) v, 0) ∧
      (Libmem.target k 0 destination offset).2 = some addr ∧
      Fetched others P n k (k', some f) (pageOf (addr.setWidth 32)) := by
  cases call with
  | alloc size reg =>
    obtain ⟨pgd, mram⟩ := Libmem.alloc_memory k reg size
    exact .inl ⟨owned.of_same pgd mram, .of_same pgd mram⟩
  | free reg =>
    obtain ⟨pgd, mram⟩ := Libmem.free_memory k reg
    exact .inl ⟨owned.of_same pgd mram, .of_same pgd mram⟩
  | read source offset => exact .inl (Libmem.read_paged owned source offset)
  | inc a2 a3 =>
    obtain ⟨pgd, mram⟩ := sysmemInc_memory k a2 a3
    exact .inl ⟨owned.of_same pgd mram, .of_same pgd mram⟩
  | write v destination offset =>
    rcases Libmem.write_cases driver owned destination offset v with
      ⟨k', failed, owned', paged⟩ | ⟨k', f, addr, stored, located, fetched⟩
    · exact .inl (by rw [kernel, failed]; exact ⟨owned', paged⟩)
    · exact .inr ⟨v, destination, offset, k', f, addr, rfl, stored, located, fetched⟩

theorem Call.kernel_owned (owned : Owned n (k.links others P) k.mram) (call : Call) :
    Owned n ((call.kernel driver k).links others P) (call.kernel driver k).mram := by
  rcases call.kernel_cases owned with ⟨owned', -⟩ | ⟨v, destination, offset, k', f, addr, rfl, stored, -, fetched⟩
  · exact owned'
  · rw [kernel, stored]
    exact fetched.owned.storeByte (pagePath_length _) (fetched.reached f rfl) (offsetOf_lt _) v

theorem Call.kernel_spares (owned : Owned n (k.links others P) k.mram) (call : Call) :
    Spares others P k (call.kernel driver k) := by
  rcases call.kernel_cases owned with ⟨-, paged⟩ | ⟨v, destination, offset, k', f, addr, rfl, stored, -, fetched⟩
  · exact paged.spares
  · rw [kernel, stored]
    exact fetched.paged.spares.trans
      (.storeByte fetched.owned (fetched.reached f rfl) (offsetOf_lt _) v)

end SimpleOS.Model
