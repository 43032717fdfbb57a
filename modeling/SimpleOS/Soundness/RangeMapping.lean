import SimpleOS.Soundness.Growth
import SimpleOS.Soundness.PageUpdates
import SimpleOS.Soundness.Replacement

/-! # Mapping a range of pages

`alloc_pages_range` takes frames and `vmap_page_range` maps them, in order, to consecutive pages. The frames are off
the free list while the pages are mapped, so the tables that are added on the way are made of other frames.
-/

namespace SimpleOS.Model

open Lib

private theorem pageOffset_toNat {pgit : ℕ} (few : pgit < 2 ^ 19) : (pageOffset pgit).toNat = pgit * 4096 := by
  have value : (BitVec.ofNat 32 (pgit * pagingPagesz)).toNat = pgit * 4096 := by
    rw [BitVec.toNat_ofNat, pagingPagesz]
    omega
  have positive : (BitVec.ofNat 32 (pgit * pagingPagesz)).msb = false := by
    rw [BitVec.msb_eq_false_iff_two_mul_lt]
    omega
  rw [pageOffset, BitVec.signExtend_eq_setWidth_of_msb_false positive, BitVec.toNat_setWidth, value]
  omega

theorem rangePage_toNat (addr : Addr) {pgit : ℕ} (few : pgit < 2 ^ 19) :
    (pagingPgn (addr + pageOffset pgit)).toNat = (addr.toNat / 4096 + pgit) % 1024 := by
  rw [pagingPgn_toNat _ (by omega), BitVec.toNat_add, pageOffset_toNat few]
  omega

private theorem rangePages_eq (addr : Addr) {pgnum : Int} {pgit : ℕ} {frames : List ℕ}
    (rounds : (pgit + frames.length : ℕ) ≤ pgnum) : rangePages addr pgnum pgit frames =
      (List.range' pgit frames.length).map fun i => pagingPgn (addr + pageOffset i) := by
  induction frames generalizing pgit with
  | nil => rfl
  | cons f frames ih =>
    rw [List.length_cons] at rounds ⊢
    have more : (pgit : Int) < pgnum := by omega
    rw [rangePages, if_pos more, ih (by omega), List.range'_succ, List.map_cons]

/-- All addresses of a page are looked up in that page. -/
private theorem rangePage_offset {addr : Addr} (aligned : addr.toNat % pagingPagesz = 0) {offset : ℕ}
    (few : offset / pagingPagesz < 2 ^ 19) :
    pagingPgn (addr + BitVec.ofNat 64 offset) = pagingPgn (addr + pageOffset (offset / pagingPagesz)) := by
  apply BitVec.eq_of_toNat_eq
  rw [rangePage_toNat addr few, pagingPgn_toNat _ (by omega), BitVec.toNat_add, BitVec.toNat_ofNat]
  simp only [pagingPagesz] at aligned few ⊢
  omega

namespace Krnl

variable {k k' : Krnl} {p : Addr} {fpn : ℕ} {pages : List Addr} {frames : List ℕ}

/-- The pages are mapped to the frames one to one, and nothing else changes. -/
structure RangeMapped (k k' : Krnl) (pages : List Addr) (frames : List ℕ) : Prop where
  wellFormed : k'.TreeWellFormed
  mapped : List.Forall₂ (fun p f => pteGetEntry k' p = (onlinePte f).setWidth 32) pages frames
  others : ∀ q, (∀ p ∈ pages, pdOf q ≠ pdOf p) → pteGetEntry k' q = pteGetEntry k q
  tables : ∀ f, k'.tree.Uses 4 f → k.tree.Uses 4 f ∨ f ∈ k.mram.freeFpList
  free : ∀ f ∈ k'.mram.freeFpList, f ∈ k.mram.freeFpList

private theorem RangeMapped.apart (mapped : k.RangeMapped k' pages frames) {f : ℕ} (taken : f ∉ k.mram.freeFpList)
    (noTable : ¬k.tree.Uses 4 f) : f ∉ k'.mram.freeFpList ∧ ¬k'.tree.Uses 4 f :=
  ⟨fun free => taken (mapped.free f free), fun used => (mapped.tables f used).elim noTable taken⟩

/-- The page that an address of the range is looked up in is mapped to the frame of its round. -/
private theorem RangeMapped.translation {addr : Addr} {pgnum : Int}
    (mapped : k.RangeMapped k' (rangePages addr pgnum 0 frames) frames)
    (aligned : addr.toNat % pagingPagesz = 0) (rounds : (frames.length : Int) ≤ pgnum) (few : frames.length ≤ 1024)
    {offset f : ℕ} (round : frames[offset / pagingPagesz]? = some f) :
    pteGetEntry k' (pagingPgn (addr + BitVec.ofNat 64 offset)) = (onlinePte f).setWidth 32 := by
  obtain ⟨inside, rfl⟩ := List.getElem?_eq_some_iff.mp round
  have pairs := mapped.mapped
  rw [rangePages_eq addr (by omega), List.forall₂_map_left_iff] at pairs
  have pair := (List.forall₂_iff_get.mp pairs).2 _ (by rw [List.length_range']; exact inside) inside
  rw [rangePage_offset aligned (by omega)]
  simpa using pair

end Krnl

end SimpleOS.Model
