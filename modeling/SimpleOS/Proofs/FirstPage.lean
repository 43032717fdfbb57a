import SimpleOS.Proofs.Calls

/-! # The first page of a process

A process without tables that faults takes one frame for the page and then one for each of the four tables. In
frames of zeros there is nothing to clear, so what the fault leaves is the links from table to table and the entry
of the page.
-/

namespace SimpleOS.Model

open Lib

variable {k : Krnl} {mp : Memphy} {frames rest : List ℕ} {f g a b c d table : ℕ} {i : Fin 512} {v : Addr}

namespace Memphy

private theorem entry_of_zero (zero : ∀ x, x / pagingPagesz = f → mp.storage x = 0) : mp.entry f i = 0 := by
  have := i.isLt
  apply Bytes.readWord_of_zero
  intro b bound
  apply zero
  simp only [pagingPagesz]
  omega

/-- A frame of zeros is as it was after it is cleared. -/
private theorem clearEntries_of_zero (zero : ∀ x, x / pagingPagesz = f → mp.storage x = 0) :
    mp.clearEntries f 512 = mp := by
  have storage : (mp.clearEntries f 512).storage = mp.storage := by
    funext x
    rw [storage_clear]
    split_ifs with inside
    · exact (zero x inside).symm
    · rfl
  have maxsz : (mp.clearEntries f 512).maxsz = mp.maxsz := clearEntries_maxsz
  have free : (mp.clearEntries f 512).freeFpList = mp.freeFpList := clearEntries_freeFpList
  generalize mp.clearEntries f 512 = cleared at storage maxsz free
  cases cleared
  cases mp
  subst storage maxsz free
  rfl

/-- Frame `g`, the first of the free list, becomes the table of entry `i`, which was zero. -/
def linkTable (mp : Memphy) (table : ℕ) (i : Fin 512) (g : ℕ) (rest : List ℕ) : Memphy :=
  ({ mp with freeFpList := rest } : Memphy).setEntry table i (initPte 0 true g false 0 0).1

end Memphy

/-- Different frames of zeros that entries can name. -/
structure ZeroFrames (mp : Memphy) (frames : List ℕ) : Prop where
  zero : ∀ g ∈ frames, ∀ x, x / pagingPagesz = g → mp.storage x = 0
  named : ∀ g ∈ frames, 0 < g ∧ g < 8192
  nodup : frames.Nodup

private theorem ZeroFrames.tail (zeros : ZeroFrames mp (f :: frames)) : ZeroFrames mp frames where
  zero g member := zeros.zero g (List.mem_cons_of_mem f member)
  named g member := zeros.named g (List.mem_cons_of_mem f member)
  nodup := (List.nodup_cons.mp zeros.nodup).2

/-- A link is stored in the first frame. -/
private theorem ZeroFrames.linkTable (zeros : ZeroFrames mp (f :: frames)) :
    ZeroFrames (mp.linkTable f i g rest) frames where
  zero h member x inside := by
    have apart : x / pagingPagesz ≠ f := by
      rw [inside]
      rintro rfl
      exact (List.nodup_cons.mp zeros.nodup).1 member
    rw [Memphy.linkTable, Memphy.storage_setEntry apart]
    exact zeros.tail.zero h member x inside
  named := zeros.tail.named
  nodup := zeros.tail.nodup

private theorem ensurePgd_zeros (absent : pagingPtePresent (k.mm.pgd i) = false) (pop : k.mram.freeFpList = g :: rest)
    (zeros : ZeroFrames k.mram (g :: frames)) : ensurePgd k i =
      ({ mm := { k.mm with pgd := Function.update k.mm.pgd i (initPte (k.mm.pgd i) true g false 0 0).1 }
         mram := { k.mram with freeFpList := rest } }, some g) := by
  obtain ⟨positive, fits⟩ := zeros.named g List.mem_cons_self
  have cleared : ({ k.mram with freeFpList := rest } : Memphy).clearEntries g 512 = { k.mram with freeFpList := rest } :=
    Memphy.clearEntries_of_zero (zeros.zero g List.mem_cons_self)
  rw [ensurePgd, absent, if_neg Bool.false_ne_true]
  simp only [Memphy.getFreefp, pop, cleared, (initPte_online _ fits positive.ne').2]

private theorem ensureTable_zeros (pop : k.mram.freeFpList = g :: rest)
    (zeros : ZeroFrames k.mram (table :: g :: frames)) :
    ensureTable k table i = ({ k with mram := k.mram.linkTable table i g rest }, some g) := by
  obtain ⟨positive, fits⟩ := zeros.named g (by simp)
  have blank : k.mram.entry table i = 0 := Memphy.entry_of_zero (zeros.zero table List.mem_cons_self)
  have blank' : ({ k.mram with freeFpList := rest } : Memphy).entry table i = 0 := blank
  have linked : ZeroFrames (k.mram.linkTable table i g rest) (g :: frames) := zeros.linkTable
  have cleared := Memphy.clearEntries_of_zero (linked.zero g List.mem_cons_self)
  rw [Memphy.linkTable] at cleared
  rw [ensureTable, blank, if_neg (by decide)]
  simp only [Memphy.getFreefp, pop, blank', cleared, Memphy.entry_setEntry_same,
    (initPte_online _ fits positive.ne').2, Memphy.linkTable]

/-- Four tables one below the other. -/
def Krnl.linkTables (k : Krnl) (pd : Pd) (a b c d : ℕ) (rest : List ℕ) : Krnl where
  mm := { k.mm with pgd := Function.update k.mm.pgd pd.pgd (initPte (k.mm.pgd pd.pgd) true a false 0 0).1 }
  mram := ((k.mram.linkTable a pd.p4d b (c :: d :: rest)).linkTable b pd.pud c (d :: rest)).linkTable c pd.pmd d rest

private theorem ensurePteMapping_zeros (pd : Pd) (absent : pagingPtePresent (k.mm.pgd pd.pgd) = false)
    (pop : k.mram.freeFpList = a :: b :: c :: d :: rest) (zeros : ZeroFrames k.mram [a, b, c, d]) :
    ensurePteMapping k pd = (k.linkTables pd a b c d rest, some d) := by
  rw [ensurePteMapping, ensurePgd_zeros absent pop zeros, thenTable]
  have first : ZeroFrames ({ k.mram with freeFpList := b :: c :: d :: rest } : Memphy) [a, b, c, d] :=
    ⟨zeros.zero, zeros.named, zeros.nodup⟩
  rw [ensureTable_zeros rfl first, thenTable]
  have second : ZeroFrames (({ k.mram with freeFpList := b :: c :: d :: rest } : Memphy).linkTable a pd.p4d b
      (c :: d :: rest)) [b, c, d] := first.linkTable
  rw [ensureTable_zeros rfl second, thenTable, ensureTable_zeros rfl second.linkTable]
  rfl

/-- The page in frame `f` below four tables. -/
def Krnl.firstPage (k : Krnl) (pgn : Addr) (f a b c d : ℕ) (rest : List ℕ) : Krnl :=
  let linked := k.linkTables (pdOf pgn) a b c d rest
  { mm := { linked.mm with fifoPgn := enlistPgnNode linked.mm.fifoPgn pgn }
    mram := linked.mram.setEntry d (pdOf pgn).pt (onlinePte f) }

private theorem pgGetpage_zeros (driver : Driver) {pgn : BitVec 32}
    (inRange : ¬(pgn.toInt < 0 ∨ (pagingMaxPgn : Int) ≤ pgn.toInt))
    (absent : ∀ i, pagingPtePresent (k.mm.pgd i) = false)
    (pop : k.mram.freeFpList = f :: a :: b :: c :: d :: rest) (zeros : ZeroFrames k.mram [a, b, c, d]) :
    pgGetpage driver k pgn = (k.firstPage (pgn.signExtend 64) f a b c d rest, some f) := by
  have none : pagingPtePresent (pteGetEntry k (pgn.signExtend 64)) = false := by
    have unmapped : k.ptTable (pdOf (pgn.signExtend 64)) = none := by
      rw [Krnl.ptTable, walkEntry, absent]
      rfl
    rw [pteGetEntry_eq_ptTable, unmapped, Option.elim_none]
    decide
  have built := ensurePteMapping_zeros
    (k := { k with mram := { k.mram with freeFpList := a :: b :: c :: d :: rest } }) (pdOf (pgn.signExtend 64))
    (absent _) rfl ⟨zeros.zero, zeros.named, zeros.nodup⟩
  rw [pgGetpage_fault_eq driver inRange none pop built]
  rfl

/-- A process without tables on zeroed RAM of `n` frames. -/
structure Krnl.Fresh (n : ℕ) (k : Krnl) : Prop where
  pgd : ∀ i, k.mm.pgd i = 0
  mram : k.mram = initMemphy n fun _ => 0

/-- The first page gets frame 0 and its tables the next four. -/
def Krnl.freshPage (k : Krnl) (n : ℕ) (pgn : Addr) : Krnl := k.firstPage pgn 0 1 2 3 4 (List.range' 5 (n - 5))

theorem pgGetpage_fresh {n : ℕ} (fresh : k.Fresh n) (enough : 5 ≤ n) (driver : Driver) {pgn : BitVec 32}
    (inRange : ¬(pgn.toInt < 0 ∨ (pagingMaxPgn : Int) ≤ pgn.toInt)) :
    pgGetpage driver k pgn = (k.freshPage n (pgn.signExtend 64), some 0) := by
  refine pgGetpage_zeros driver inRange ?_ ?_ ⟨?_, by decide, by decide⟩
  · intro i
    rw [fresh.pgd]
    exact pagingPtePresent_zero
  · obtain ⟨more, rfl⟩ := Nat.exists_eq_add_of_le' enough
    rw [fresh.mram, initMemphy, List.range_eq_range', Nat.add_sub_cancel]
    rfl
  · intro g _ x _
    rw [fresh.mram]
    rfl

namespace Libmem

variable {rgid : BitVec 32} {offset addr : Addr} {n : ℕ}

private theorem fresh_target (fresh : k.Fresh n) (rgid : BitVec 32) (offset : Addr) :
    (target k 0 rgid offset).1.Fresh n where
  pgd i := (congrFun (target_opened k rgid offset).1.pgd i).trans (fresh.pgd i)
  mram := (target_opened k rgid offset).1.mram.trans fresh.mram

/-- The first read of a process is from the page that it gets. -/
theorem read_fresh (fresh : k.Fresh n) (enough : 5 ≤ n) (driver : Driver)
    (opened : (target k 0 rgid offset).2 = some addr) :
    let k' := (target k 0 rgid offset).1.freshPage n (pageOf (addr.setWidth 32))
    read driver k 0 rgid offset = (k', k'.mram.read (offsetOf (addr.setWidth 32))) := by
  have fresh' := fresh_target fresh rgid offset
  rw [read]
  generalize target k 0 rgid offset = result at opened fresh'
  obtain ⟨k', _⟩ := result
  subst opened
  simp only [pgGetval, pgGetpage_fresh fresh' enough driver (pagingPgn_inRange _), Nat.zero_mul, Nat.zero_add]
  rfl

/-- The first write of a process stores the byte in the page that it gets. -/
theorem write_fresh (fresh : k.Fresh n) (enough : 5 ≤ n) (driver : Driver) (byte : BitVec 8)
    (opened : (target k 0 rgid offset).2 = some addr) :
    write driver k 0 rgid offset byte =
      (((target k 0 rgid offset).1.freshPage n (pageOf (addr.setWidth 32))).storeByte 0
        (offsetOf (addr.setWidth 32)) byte, 0) := by
  have fresh' := fresh_target fresh rgid offset
  rw [write]
  generalize target k 0 rgid offset = result at opened fresh'
  obtain ⟨k', _⟩ := result
  subst opened
  let page := k'.freshPage n (pageOf (addr.setWidth 32))
  have inside : 0 * pagingPagesz + (pagingOffst (addr.setWidth 32)).toNat < page.mram.maxsz := by
    have bound : (pagingOffst (addr.setWidth 32)).toNat < pagingPagesz := offsetOf_lt (addr.setWidth 32)
    have size : page.mram.maxsz = n * pagingPagesz := congrArg Memphy.maxsz fresh'.mram
    rw [size]
    simp only [pagingPagesz] at *
    omega
  have written : page.mram.write (0 * pagingPagesz + (pagingOffst (addr.setWidth 32)).toNat) byte =
      some (page.storeByte 0 (offsetOf (addr.setWidth 32)) byte).mram := if_pos inside
  have same : k'.freshPage n (pageOf (addr.setWidth 32)) = page := rfl
  simp only [pgSetval, pgGetpage_fresh fresh' enough driver (pagingPgn_inRange _)]
  rw [← pageOf, same, written]
  rfl

end Libmem

end SimpleOS.Model
