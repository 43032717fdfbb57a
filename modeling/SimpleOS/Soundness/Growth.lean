import SimpleOS.Proofs.Regions

/-! # Growing the area of a process

The arithmetic of `__alloc` and `inc_vma_limit` for every 64-bit size, the mapping `inc_vma_limit` announces,
and the report of `alloc_pages_range`.
-/

namespace SimpleOS.Model

variable {k : Krnl} {vmaid : Int} {rgid : BitVec 32} {slot : Fin 30} {size inc a2 a3 : Addr}

/-- `__alloc` fails and leaves the regions, or places `[sbrk, sbrk + size)` below a limit that has not
decreased, with a sum that does not wrap. -/
def Krnl.AllocExact (k : Krnl) (vmaid : Int) (rgid : BitVec 32) (slot : Fin 30) (size : Addr) : Prop :=
  let result := Libmem.alloc k vmaid rgid size
  let now := k.mm.regions
  let after := result.1.mm.regions
  result.2 = none ∧ after = now ∨
    result.2 = some now.sbrk ∧ after.symrgtbl = Function.update now.symrgtbl slot ⟨now.sbrk, after.sbrk⟩ ∧
      after.sbrk.toNat = now.sbrk.toNat + size.toNat ∧ after.sbrk ≤ after.vmEnd ∧ now.vmEnd ≤ after.vmEnd

/-- The limit does not decrease, and a status of 0 means at least the increment was added. -/
def Krnl.IncExact (k : Krnl) (result : Krnl × Int) (inc : Addr) : Prop :=
  k.mm.mmap.vmEnd ≤ result.1.mm.mmap.vmEnd ∧
    (result.2 = 0 → k.mm.mmap.vmEnd.toNat + inc.toNat ≤ result.1.mm.mmap.vmEnd.toNat)

private theorem Libmem.alloc_vma (first : vmaid ≤ 0) : alloc k vmaid rgid size = alloc k 0 rgid size := by
  simp only [alloc, getVmaByNum, incVmaLimit_eq, first, le_refl, if_true]

private theorem Libmem.alloc_no_vma (other : ¬vmaid ≤ 0) : alloc k vmaid rgid size = (k, none) := by
  rw [alloc]
  cases symIndex rgid with
  | none => rfl
  | some slot => simp only [getVmaByNum, other, if_false]

private theorem Krnl.allocExact_placed (low : pagingPagesz ≤ k.mm.mmap.sbrk.toNat) (first : vmaid ≤ 0)
    (index : symIndex rgid = some slot) (free : ¬(k.mm.symrgtbl slot).Live) :
    k.AllocExact vmaid rgid slot size ↔
      (k.mm.mmap.sbrk + size).toNat = k.mm.mmap.sbrk.toNat + size.toNat ∧
        k.mm.mmap.sbrk + size ≤ k.mm.regions.limit size ∧ k.mm.mmap.vmEnd ≤ k.mm.regions.limit size := by
  have top : k.mm.regions.top = k.mm.mmap.sbrk := by
    apply if_neg
    intro zero
    rw [show k.mm.mmap.sbrk = 0 from zero] at low
    exact absurd low (by decide)
  rw [AllocExact, Libmem.alloc_vma first]
  obtain ⟨-, used⟩ | ⟨slot', index', -, placed⟩ := Libmem.alloc_cases k rgid size
  · exact absurd (used slot index) free
  · rw [index] at index'
    cases index'
    rw [placed]
    constructor
    · rintro (⟨failed, -⟩ | ⟨-, -, sum, below, kept⟩)
      · cases failed
      · rw [placed_regions, Regions.act, top] at sum below
        exact ⟨sum, below, kept⟩
    · rintro ⟨sum, below, kept⟩
      refine .inr ⟨congrArg some top, ?_⟩
      dsimp only
      rw [placed_regions, Regions.act, top]
      exact ⟨rfl, sum, below, kept⟩

private theorem Krnl.allocExact_iff (low : pagingPagesz ≤ k.mm.mmap.sbrk.toNat)
    (ordered : k.mm.mmap.sbrk ≤ k.mm.mmap.vmEnd) (index : symIndex rgid = some slot)
    (free : ¬(k.mm.symrgtbl slot).Live) :
    k.AllocExact vmaid rgid slot size ↔ 0 < vmaid ∨ k.mm.mmap.sbrk.toNat + size.toNat < 2 ^ 64 ∧
      (k.mm.mmap.sbrk.toNat + size.toNat ≤ k.mm.mmap.vmEnd.toNat ∨
        k.mm.mmap.vmEnd.toNat + Call.rounded size.toNat < 2 ^ 64) := by
  by_cases first : vmaid ≤ 0
  · have other : ¬0 < vmaid := by omega
    rw [allocExact_placed low first index free, BitVec.toNat_add]
    simp only [other, false_or]
    have below := k.mm.mmap.sbrk.isLt
    have limit := k.mm.mmap.vmEnd.isLt
    by_cases fits : k.mm.mmap.sbrk.toNat + size.toNat < 2 ^ 64
    · -- below the break there is a page, so the rounding cannot wrap either
      have rounded : (roundUp size).toNat = Call.rounded size.toNat := by
        apply roundUp_toNat
        simp only [pagingPagesz] at low
        omega
      have enough : size.toNat ≤ Call.rounded size.toNat := by
        simp only [Call.rounded, pagingPagesz]
        omega
      have grown := BitVec.toNat_add k.mm.mmap.vmEnd (roundUp size)
      rw [rounded] at grown
      simp only [Nat.mod_eq_of_lt fits, fits, true_and]
      rw [BitVec.le_def] at ordered
      by_cases beyond : k.mm.mmap.vmEnd < k.mm.mmap.sbrk + size
      · have limit_eq : k.mm.regions.limit size = k.mm.mmap.vmEnd + roundUp size := if_pos beyond
        rw [BitVec.lt_def, BitVec.toNat_add, Nat.mod_eq_of_lt fits] at beyond
        rw [limit_eq, BitVec.le_def, BitVec.le_def, BitVec.toNat_add, Nat.mod_eq_of_lt fits, grown]
        omega
      · have limit_eq : k.mm.regions.limit size = k.mm.mmap.vmEnd := if_neg beyond
        rw [BitVec.lt_def, BitVec.toNat_add, Nat.mod_eq_of_lt fits] at beyond
        rw [limit_eq, BitVec.le_def, BitVec.le_def, BitVec.toNat_add, Nat.mod_eq_of_lt fits]
        omega
    · constructor
      · rintro ⟨sum, -, -⟩
        omega
      · rintro ⟨sum, -⟩
        exact absurd sum fits
  · have other : 0 < vmaid := by omega
    simp only [other, true_or, iff_true]
    rw [AllocExact, Libmem.alloc_no_vma first]
    exact .inl ⟨rfl, rfl⟩

/-- `inc_vma_limit` keeps its promise exactly when neither the rounding nor the sum wraps. -/
private theorem Krnl.incExact_iff : k.IncExact (incVmaLimit k vmaid inc) inc ↔ 0 < vmaid ∨
    inc.toNat + 4095 < 2 ^ 64 ∧ k.mm.mmap.vmEnd.toNat + Call.rounded inc.toNat < 2 ^ 64 := by
  rw [IncExact, incVmaLimit_eq]
  split_ifs with first
  · have other : ¬0 < vmaid := by omega
    have limit := k.mm.mmap.vmEnd.isLt
    have bound := inc.isLt
    have value := roundUp_value inc
    simp only [other, false_or, forall_const, BitVec.le_def, BitVec.toNat_add, Call.rounded, pagingPagesz]
    omega
  · have other : 0 < vmaid := by omega
    simp [other]

/-- `SYSMEM_INC_OP` hands on 32 bits of the increment only. -/
private theorem Krnl.requestExact_iff : k.IncExact (sysmemInc k a2 a3) a3 ↔ 0 < (a2.setWidth 32).toInt ∨
    a3.toNat < 2 ^ 32 ∧ k.mm.mmap.vmEnd.toNat + Call.rounded a3.toNat < 2 ^ 64 := by
  have narrowed : ((a3.setWidth 32).setWidth 64 : Addr).toNat = a3.toNat % 2 ^ 32 := by
    rw [BitVec.toNat_setWidth, BitVec.toNat_setWidth]
    omega
  rw [IncExact, sysmemInc, incVmaLimit_eq]
  split_ifs with first
  · have other : ¬0 < (a2.setWidth 32).toInt := by omega
    have limit := k.mm.mmap.vmEnd.isLt
    have value := roundUp_value ((a3.setWidth 32).setWidth 64)
    rw [narrowed] at value
    simp only [other, false_or, forall_const, BitVec.le_def, BitVec.toNat_add, Call.rounded, pagingPagesz]
    omega
  · have other : 0 < (a2.setWidth 32).toInt := by omega
    simp only [other, true_or, iff_true]
    exact ⟨BitVec.le_refl _, fun status => absurd status (by decide)⟩

/-- For every size the arithmetic of `__alloc` is exact if and only if the end of the region does not wrap and
the limit, where it has to grow, does not wrap either. An increment is added in full if and only if neither its
rounding nor the new limit wraps, and through `SYSMEM_INC_OP` only if it has 32 bits. -/
theorem alloc_arithmetic_iff (low : pagingPagesz ≤ k.mm.mmap.sbrk.toNat)
    (ordered : k.mm.mmap.sbrk ≤ k.mm.mmap.vmEnd) :
    (∀ vmaid rgid slot size, symIndex rgid = some slot → ¬(k.mm.symrgtbl slot).Live →
      (k.AllocExact vmaid rgid slot size ↔ 0 < vmaid ∨ k.mm.mmap.sbrk.toNat + size.toNat < 2 ^ 64 ∧
        (k.mm.mmap.sbrk.toNat + size.toNat ≤ k.mm.mmap.vmEnd.toNat ∨
          k.mm.mmap.vmEnd.toNat + Call.rounded size.toNat < 2 ^ 64))) ∧
    (∀ vmaid inc, k.IncExact (incVmaLimit k vmaid inc) inc ↔ 0 < vmaid ∨
      inc.toNat + 4095 < 2 ^ 64 ∧ k.mm.mmap.vmEnd.toNat + Call.rounded inc.toNat < 2 ^ 64) ∧
    ∀ a2 a3 : Addr, k.IncExact (sysmemInc k a2 a3) a3 ↔ 0 < (a2.setWidth 32).toInt ∨
      a3.toNat < 2 ^ 32 ∧ k.mm.mmap.vmEnd.toNat + Call.rounded a3.toNat < 2 ^ 64 := by
  refine ⟨?_, ?_, ?_⟩
  · intro vmaid rgid slot size index free
    exact Krnl.allocExact_iff low ordered index free
  · intro vmaid inc
    exact Krnl.incExact_iff
  · intro a2 a3
    exact Krnl.requestExact_iff

theorem alloc_arithmetic_newborn : Krnl.newborn.AllocExact 0 3 3 5000 := by
  have exactly := alloc_arithmetic_iff (k := Krnl.newborn) (by decide) (by decide)
  exact (exactly.1 0 3 3 5000 (by decide) (by decide)).mpr (by decide)

/-- A size of `2 ^ 64 - 4096` bytes wraps: the region is `[4096, 0)`, and the break becomes 0. -/
theorem alloc_wraps : symIndex 1 = some 1 ∧ ¬(Krnl.newborn.mm.symrgtbl 1).Live ∧
    (Libmem.alloc Krnl.newborn 0 1 0xfffffffffffff000).2 = some 4096 ∧
    (Libmem.alloc Krnl.newborn 0 1 0xfffffffffffff000).1.mm.mmap.sbrk = 0 ∧
    ¬Krnl.newborn.AllocExact 0 1 1 0xfffffffffffff000 := by
  refine ⟨by decide, by decide, by decide, by decide, ?_⟩
  rw [Krnl.allocExact_iff (by decide) (by decide) (by decide) (by decide)]
  decide

/-- The pages of a region, counted from its start. -/
def VmRg.pages (rg : VmRg) : List Addr :=
  (List.range ((rg.rgEnd - rg.rgStart).toNat / pagingPagesz)).map fun i =>
    (rg.rgStart + BitVec.ofNat 64 (i * pagingPagesz)) >>> 12

/-- The page is present in a frame of RAM that no other page has. -/
def Krnl.OwnFrame (k : Krnl) (pgn : Addr) : Prop :=
  pagingPtePresent (pteGetEntry k pgn) = true ∧
    pagingPteFpn (pteGetEntry k pgn) < k.mram.maxsz / pagingPagesz ∧
    ∀ other : Addr, other.toNat < 2 ^ 45 → other ≠ pgn → pagingPtePresent (pteGetEntry k other) = true →
      pagingPteFpn (pteGetEntry k other) ≠ pagingPteFpn (pteGetEntry k pgn)

/-- What growing the area promises: the new pages are mapped, each in its own frame; the region that
`vm_map_ram` reports covers the pages that were mapped; without enough frames the limit stays. -/
structure Krnl.Grown (k : Krnl) (vmaid : Int) (inc : Addr) : Prop where
  mapped : (incVmaLimit k vmaid inc).2 = 0 → ∀ pgn : Addr,
    k.mm.mmap.vmEnd.toNat ≤ pgn.toNat * pagingPagesz →
    pgn.toNat * pagingPagesz < (incVmaLimit k vmaid inc).1.mm.mmap.vmEnd.toNat →
    (incVmaLimit k vmaid inc).1.OwnFrame pgn
  reported : (incVmaLimit k vmaid inc).2 = 0 → ∀ pgn : Addr,
    pgn ∈ (vmMapRam k k.mm.mmap.vmEnd ((roundUp inc / BitVec.ofNat 64 pagingPagesz).setWidth 32)).2.pages ↔
      pagingPtePresent (pteGetEntry k pgn) = false ∧
        pagingPtePresent (pteGetEntry (incVmaLimit k vmaid inc).1 pgn) = true
  refused : k.mram.freeFpList.length < (roundUp inc).toNat / pagingPagesz →
    (incVmaLimit k vmaid inc).2 = -1 ∧ (incVmaLimit k vmaid inc).1.mm.mmap.vmEnd = k.mm.mmap.vmEnd

/-- Growing the area changes no entry. -/
private theorem incVmaLimit_entries (k : Krnl) (vmaid : Int) (inc pgn : Addr) :
    pteGetEntry (incVmaLimit k vmaid inc).1 pgn = pteGetEntry k pgn := by
  rw [incVmaLimit_eq]
  split_ifs <;> rfl

/-- The reported region of `pgnum` pages is not empty, also where the `int` product is negative. -/
private theorem vmMapRam_pages (k : Krnl) (start : Addr) {pgnum : BitVec 32} (some_page : 0 < pgnum.toNat)
    (few : pgnum.toNat < 2 ^ 20) : start >>> 12 ∈ (vmMapRam k start pgnum).2.pages := by
  have product : (pgnum * BitVec.ofNat 32 pagingPagesz).toNat = pgnum.toNat * 4096 := by
    rw [BitVec.toNat_mul]
    simp only [pagingPagesz, BitVec.toNat_ofNat]
    omega
  have size : ((vmMapRam k start pgnum).2.rgEnd - (vmMapRam k start pgnum).2.rgStart).toNat =
      ((pgnum * BitVec.ofNat 32 pagingPagesz).signExtend 64).toNat := by
    have region : (vmMapRam k start pgnum).2 =
      ⟨start, start + (pgnum * BitVec.ofNat 32 pagingPagesz).signExtend 64⟩ := rfl
    rw [region, BitVec.add_comm, BitVec.add_sub_cancel]
  have wide : pgnum.toNat * 4096 ≤ ((pgnum * BitVec.ofNat 32 pagingPagesz).signExtend 64).toNat := by
    rw [BitVec.toNat_signExtend, BitVec.toNat_setWidth, product]
    split_ifs <;> omega
  rw [VmRg.pages, List.mem_map]
  refine ⟨0, ?_, ?_⟩
  · rw [List.mem_range, size]
    simp only [pagingPagesz] at wide ⊢
    omega
  · change (start + BitVec.ofNat 64 (0 * pagingPagesz)) >>> 12 = start >>> 12
    rw [Nat.zero_mul, BitVec.add_zero]

/-- `maxsz` is an `int`, so a RAM has at most `2 ^ 19` frames. An increment of one page or more is granted
without any mapping, whatever the supply. -/
theorem grown_iff (supply : k.mram.freeFpList.length ≤ 2 ^ 19) :
    k.Grown vmaid inc ↔ 0 < vmaid ∨ roundUp inc = 0 := by
  constructor
  · intro grown
    by_contra neither
    simp only [not_or, Int.not_lt] at neither
    obtain ⟨first, some_page⟩ := neither
    have status : (incVmaLimit k vmaid inc).2 = 0 := by rw [incVmaLimit_eq, if_pos first]
    have enough : (roundUp inc).toNat / pagingPagesz ≤ k.mram.freeFpList.length := by
      by_contra short
      have refused := (grown.refused (Nat.lt_of_not_le short)).1
      rw [status] at refused
      cases refused
    -- the region names a page, and the call maps none
    have whole : 4096 ≤ (roundUp inc).toNat := by
      have positive : (roundUp inc).toNat ≠ 0 := fun zero => some_page (BitVec.eq_of_toNat_eq zero)
      have value := roundUp_value inc
      omega
    have pages : ((roundUp inc / BitVec.ofNat 64 pagingPagesz).setWidth 32).toNat = (roundUp inc).toNat / 4096 := by
      have divisor : (BitVec.ofNat 64 pagingPagesz).toNat = 4096 := rfl
      rw [BitVec.toNat_setWidth, BitVec.toNat_udiv, divisor]
      simp only [pagingPagesz] at enough
      omega
    simp only [pagingPagesz] at enough
    have named := vmMapRam_pages k k.mm.mmap.vmEnd (by rw [pages]; omega) (by rw [pages]; omega)
    obtain ⟨absent, present⟩ := (grown.reported status _).mp named
    rw [incVmaLimit_entries, absent] at present
    cases present
  · rintro (other | none_asked)
    · have failed : incVmaLimit k vmaid inc = (k, -1) := by rw [incVmaLimit_eq, if_neg (by omega)]
      have status : (incVmaLimit k vmaid inc).2 ≠ 0 := by
        rw [failed]
        exact Int.neg_ne_zero.mpr Int.one_ne_zero
      refine ⟨fun success => absurd success status, fun success => absurd success status, ?_⟩
      intro _
      rw [failed]
      exact ⟨rfl, rfl⟩
    · have limit : (incVmaLimit k vmaid inc).1.mm.mmap.vmEnd = k.mm.mmap.vmEnd := by
        rw [incVmaLimit_eq]
        split_ifs
        · change k.mm.mmap.vmEnd + roundUp inc = _
          rw [none_asked]
          exact BitVec.add_zero _
        · rfl
      refine ⟨?_, ?_, ?_⟩
      · intro _ pgn above below
        rw [limit] at below
        omega
      · intro _ pgn
        rw [none_asked, incVmaLimit_entries]
        have region : (vmMapRam k k.mm.mmap.vmEnd ((0 / BitVec.ofNat 64 pagingPagesz : Addr).setWidth 32)).2 =
          ⟨k.mm.mmap.vmEnd, k.mm.mmap.vmEnd + 0⟩ := rfl
        have empty :
            (vmMapRam k k.mm.mmap.vmEnd ((0 / BitVec.ofNat 64 pagingPagesz : Addr).setWidth 32)).2.pages = [] := by
          rw [region, VmRg.pages]
          simp
        rw [empty]
        refine iff_of_false List.not_mem_nil ?_
        rintro ⟨absent, present⟩
        rw [absent] at present
        cases present
      · intro short
        rw [none_asked] at short
        exact absurd short (by simp)

theorem grown_by_nothing : Krnl.newborn.Grown 0 0 :=
  (grown_iff (by decide)).mpr (.inr (by decide))

/-- With eight frames free, an increment of one page is granted, the limit moves to `0x101000`, and page 256
is absent. -/
theorem granted_unmapped : (incVmaLimit Krnl.newborn 0 4096).2 = 0 ∧
    (incVmaLimit Krnl.newborn 0 4096).1.mm.mmap.vmEnd = 0x101000 ∧
    pagingPtePresent (pteGetEntry (incVmaLimit Krnl.newborn 0 4096).1 256) = false ∧
    ¬Krnl.newborn.Grown 0 4096 := by
  refine ⟨by decide, by decide, by decide, ?_⟩
  rw [grown_iff (by decide)]
  decide

/-- `alloc_pages_range` returns 0 exactly when it has all frames, and its list is what left the free list, in
order and each frame once. -/
structure Krnl.AllocReported (k : Krnl) (reqPgnum : BitVec 32) : Prop where
  status : (allocPagesRange k reqPgnum).2.2 = 0 ↔ ((allocPagesRange k reqPgnum).2.1.length : Int) = reqPgnum.toInt
  taken : k.mram.freeFpList = (allocPagesRange k reqPgnum).2.1 ++ (allocPagesRange k reqPgnum).1.mram.freeFpList
  nodup : k.mram.freeFpList.Nodup → (allocPagesRange k reqPgnum).2.1.Nodup
  perm : ((allocPagesRange k reqPgnum).1.mram.freeFpList ++ (allocPagesRange k reqPgnum).2.1).Perm
    k.mram.freeFpList

/-- The loop moves frames from the head of the free list to the end of its own. -/
theorem allocPagesRangeLoop_eq (mram : Memphy) (frmLst : List ℕ) (n : ℕ) :
    allocPagesRangeLoop mram frmLst n =
      ({ mram with freeFpList := mram.freeFpList.drop n }, frmLst ++ mram.freeFpList.take n) := by
  induction n generalizing mram frmLst with
  | zero => simp [allocPagesRangeLoop]
  | succ n ih =>
    rw [allocPagesRangeLoop, Memphy.getFreefp]
    cases free : mram.freeFpList with
    | nil =>
      simp only [List.drop_nil, List.take_nil, List.append_nil]
      rw [← free]
    | cons fpn rest => simp only [ih, List.drop_succ_cons, List.take_succ_cons, List.append_assoc, List.cons_append,
        List.nil_append]

private theorem allocPagesRange_frames (k : Krnl) (reqPgnum : BitVec 32) :
    (allocPagesRange k reqPgnum).2.1 = k.mram.freeFpList.take reqPgnum.toInt.toNat ∧
      (allocPagesRange k reqPgnum).1.mram.freeFpList = k.mram.freeFpList.drop reqPgnum.toInt.toNat := by
  simp only [allocPagesRange, allocPagesRangeLoop_eq, List.nil_append, and_self]

/-- A count is returned as it is, so none of several frames looks like all of them. -/
theorem alloc_reported_iff (reqPgnum : BitVec 32) (asked : 0 ≤ reqPgnum.toInt) :
    k.AllocReported reqPgnum ↔ reqPgnum.toInt = 0 ∨ k.mram.freeFpList ≠ [] := by
  obtain ⟨frames, rest⟩ := allocPagesRange_frames k reqPgnum
  have returned : (allocPagesRange k reqPgnum).2.2 =
      if ((allocPagesRange k reqPgnum).2.1.length : Int) = reqPgnum.toInt then 0
      else BitVec.ofNat 64 (allocPagesRange k reqPgnum).2.1.length := rfl
  have small : reqPgnum.toInt < 2 ^ 31 := BitVec.toInt_lt
  constructor
  · intro reported
    by_contra neither
    simp only [not_or, not_not] at neither
    obtain ⟨some_asked, empty⟩ := neither
    have status := reported.status
    rw [returned, frames, empty] at status
    simp only [List.take_nil, List.length_nil, Nat.cast_zero] at status
    exact some_asked (status.mp (by simp)).symm
  · intro enough
    refine ⟨?_, ?_, ?_, ?_⟩
    · rw [returned]
      split_ifs with all
      · exact iff_of_true rfl all
      · refine iff_of_false ?_ all
        intro zero
        have value := congrArg BitVec.toNat zero
        rw [BitVec.toNat_ofNat, frames, List.length_take] at value
        rw [frames, List.length_take] at all
        have some_frame : reqPgnum.toInt = 0 ∨ 0 < k.mram.freeFpList.length :=
          enough.imp_right List.length_pos_of_ne_nil
        change _ = 0 at value
        omega
    · rw [frames, rest, List.take_append_drop]
    · intro nodup
      rw [frames]
      exact nodup.sublist (List.take_sublist _ _)
    · rw [frames, rest]
      exact List.perm_append_comm.trans (List.take_append_drop _ _ ▸ List.Perm.refl _)

theorem alloc_reported_newborn : Krnl.newborn.AllocReported 5 :=
  (alloc_reported_iff 5 (by decide)).mpr (by decide)

/-- Three frames are asked of an empty free list; none is delivered, and the value returned is 0. -/
theorem alloc_reports_nothing : let k : Krnl := ⟨Krnl.newborn.mm, initMemphy 0 fun _ => 0⟩
    (allocPagesRange k 3).2 = ([], 0) ∧ ¬k.AllocReported 3 := by
  refine ⟨by decide, ?_⟩
  intro reported
  exact absurd (reported.status.mp (by decide)) (by decide)

end SimpleOS.Model
