import SimpleOS.Model.Mm

/-! # The five-level page table

`mm64.c`. The first level is the array `mm->pgd`; the tables of the four lower levels are frames of
RAM. A path is completed on demand from the free list, and a failure leaves the part that is
already built in place.
-/

namespace SimpleOS.Model

/-- `init_pte`. A frame number of zero is refused and leaves the entry unchanged. -/
def initPte (pte : Addr) (pre : Bool) (fpn : ℕ) (swp : Bool) (swptyp : ℕ) (swpoff : Addr) :
    Addr × Int :=
  if pre then
    if !swp then
      if fpn = 0 then (pte, -1)
      else
        let online := clrBit (clrBit (setBit pte pagingPtePresentMask) pagingPteSwappedMask)
          pagingPteDirtyMask
        (setVal online (BitVec.ofNat 64 fpn) pagingPteFpnMask 0, 0)
    else
      let swapped := clrBit (setBit (setBit pte pagingPtePresentMask) pagingPteSwappedMask)
        pagingPteDirtyMask
      (setVal (setVal swapped (BitVec.ofNat 64 swptyp) pagingPteSwptypMask 0)
        swpoff pagingPteSwpoffMask 5, 0)
  else (pte, 0)

/-- The block of `ensure_pte_mapping` for the first level, whose entry lies in `mm->pgd`. The result
is the frame number the entry holds afterwards, or `none` when no frame is free. -/
def ensurePgd (k : Krnl) (i : Fin 512) : Krnl × Option ℕ :=
  if pagingPtePresent (k.mm.pgd i) then (k, some (pagingPteFpn (k.mm.pgd i)))
  else
    match k.mram.getFreefp with
    | none => (k, none)
    | some (fpn, mram) =>
      let pte := (initPte (k.mm.pgd i) true fpn false 0 0).1
      ({ mm := { k.mm with pgd := Function.update k.mm.pgd i pte }
         mram := mram.clearEntries fpn 512 }, some (pagingPteFpn pte))

/-- The block of `ensure_pte_mapping` for a level whose entry lies in the table frame `table`. The
entry is stored before the new table is cleared and read again afterwards. -/
def ensureTable (k : Krnl) (table : ℕ) (i : Fin 512) : Krnl × Option ℕ :=
  if pagingPtePresent (k.mram.entry table i) then (k, some (pagingPteFpn (k.mram.entry table i)))
  else
    match k.mram.getFreefp with
    | none => (k, none)
    | some (fpn, mram) =>
      let pte := (initPte (mram.entry table i) true fpn false 0 0).1
      let mram := (mram.setEntry table i pte).clearEntries fpn 512
      ({ k with mram }, some (pagingPteFpn (mram.entry table i)))

/-- Continue with the frame of a block, or stop with the state it leaves. -/
def thenTable {α : Type} (result : Krnl × Option ℕ) (next : Krnl → ℕ → Krnl × Option α) :
    Krnl × Option α :=
  match result with
  | (k, none) => (k, none)
  | (k, some table) => next k table

/-- `ensure_pte_mapping`: complete the path of a page. The result is the frame of the page's PT
table; the slot itself is entry `pd.pt` of that frame. -/
def ensurePteMapping (k : Krnl) (pd : Pd) : Krnl × Option ℕ :=
  thenTable (ensurePgd k pd.pgd) fun k p4d =>
  thenTable (ensureTable k p4d pd.p4d) fun k pud =>
  thenTable (ensureTable k pud pd.pud) fun k pmd =>
  ensureTable k pmd pd.pmd

/-- The entry `pte_set_fpn` stores: present, not swapped, with frame `fpn`. -/
def onlinePte (fpn : ℕ) : Addr :=
  setVal (clrBit (setBit 0 pagingPtePresentMask) pagingPteSwappedMask)
    (BitVec.ofNat 64 fpn) pagingPteFpnMask 0

/-- `pte_set_fpn`. -/
def pteSetFpn (k : Krnl) (pgn : Addr) (fpn : ℕ) : Krnl × Int :=
  match getPdFromPagenum pgn with
  | none => (k, -1)
  | some pd =>
    match ensurePteMapping k pd with
    | (k, none) => (k, -1)
    | (k, some table) => ({ k with mram := k.mram.setEntry table pd.pt (onlinePte fpn) }, 0)

/-- The block of `pte_set_swap` for the first level. The new table is not cleared. -/
def takePgd (k : Krnl) (i : Fin 512) : Krnl × Option ℕ :=
  if pagingPtePresent (k.mm.pgd i) then (k, some (pagingPteFpn (k.mm.pgd i)))
  else
    match k.mram.getFreefp with
    | none => (k, none)
    | some (fpn, mram) =>
      let pte := (initPte (k.mm.pgd i) true fpn false 0 0).1
      ({ mm := { k.mm with pgd := Function.update k.mm.pgd i pte }, mram }, some (pagingPteFpn pte))

/-- The block of `pte_set_swap` for a level whose entry lies in the table frame `table`. -/
def takeTable (k : Krnl) (table : ℕ) (i : Fin 512) : Krnl × Option ℕ :=
  if pagingPtePresent (k.mram.entry table i) then (k, some (pagingPteFpn (k.mram.entry table i)))
  else
    match k.mram.getFreefp with
    | none => (k, none)
    | some (fpn, mram) =>
      let mram := mram.setEntry table i (initPte (mram.entry table i) true fpn false 0 0).1
      ({ k with mram }, some (pagingPteFpn (mram.entry table i)))

/-- The walk of `pte_set_swap` to the PT table of a page. -/
def takePath (k : Krnl) (pd : Pd) : Krnl × Option ℕ :=
  thenTable (takePgd k pd.pgd) fun k p4d =>
  thenTable (takeTable k p4d pd.p4d) fun k pud =>
  thenTable (takeTable k pud pd.pud) fun k pmd =>
  takeTable k pmd pd.pmd

/-- The entry `pte_set_swap` makes of what the slot holds. -/
def swappedPte (pte : Addr) (swptyp : BitVec 32) (swpoff : Addr) : Addr :=
  setVal (setVal (setBit (setBit pte pagingPtePresentMask) pagingPteSwappedMask)
    (swptyp.setWidth 64) pagingPteSwptypMask 0) swpoff pagingPteSwpoffMask 5

/-- `pte_set_swap`. The slot is changed in place. -/
def pteSetSwap (k : Krnl) (pgn : Addr) (swptyp : BitVec 32) (swpoff : Addr) : Krnl × Int :=
  match getPdFromPagenum pgn with
  | none => (k, -1)
  | some pd =>
    match takePath k pd with
    | (k, none) => (k, -1)
    | (k, some table) =>
      let pte := swappedPte (k.mram.entry table pd.pt) swptyp swpoff
      ({ k with mram := k.mram.setEntry table pd.pt pte }, 0)

/-- One level of the walk of `pte_get_entry`: the table frame an entry names, when the entry is
present and the frame lies in RAM. -/
def walkEntry (mram : Memphy) (entry : Addr) : Option ℕ :=
  if pagingPtePresent entry then
    if pagingPteFpn entry * pagingPagesz ≥ mram.maxsz then none else some (pagingPteFpn entry)
  else none

/-- `pte_get_entry`. The 64-bit entry is returned as a `uint32_t`. -/
def pteGetEntry (k : Krnl) (pgn : Addr) : BitVec 32 :=
  match getPdFromPagenum pgn with
  | none => 0
  | some pd =>
    match (do
      let p4d ← walkEntry k.mram (k.mm.pgd pd.pgd)
      let pud ← walkEntry k.mram (k.mram.entry p4d pd.p4d)
      let pmd ← walkEntry k.mram (k.mram.entry pud pd.pud)
      walkEntry k.mram (k.mram.entry pmd pd.pmd)) with
    | none => 0
    | some pt => (k.mram.entry pt pd.pt).setWidth 32

/-- The `int` product `pgit * PAGING_PAGESZ`, as it is added to an address. -/
def pageOffset (pgit : ℕ) : Addr := (BitVec.ofNat 32 (pgit * pagingPagesz)).signExtend 64

/-- The first `n` rounds of the loop of `vmap_pgd_memset`: frame numbers from a fixed pattern,
whatever the status of each call. -/
def vmapPgdMemsetLoop (addr : Addr) (k : Krnl) : ℕ → Krnl
  | 0 => k
  | pgit + 1 =>
    let k := vmapPgdMemsetLoop addr k pgit
    let pgn := pagingPgn (addr + pageOffset pgit)
    (pteSetFpn k pgn ((0xdeadbeef + pgit) &&& 0xFFFFF)).1

/-- `vmap_pgd_memset`; `pgnum` is an `int`, and a negative count maps nothing. -/
def vmapPgdMemset (k : Krnl) (addr : Addr) (pgnum : Int) : Krnl :=
  vmapPgdMemsetLoop addr k pgnum.toNat

/-- The loop of `vmap_page_range` from round `pgit` on: it ends with the count or with the frames. -/
def vmapPageRangeLoop (addr : Addr) (pgnum : Int) (k : Krnl) : ℕ → List ℕ → Krnl
  | _, [] => k
  | pgit, fpn :: frames =>
    if (pgit : Int) < pgnum then
      let pgn := pagingPgn (addr + pageOffset pgit)
      let k := (pteSetFpn k pgn fpn).1
      vmapPageRangeLoop addr pgnum
        { k with mm := { k.mm with fifoPgn := enlistPgnNode k.mm.fifoPgn pgn } } (pgit + 1) frames
    else k

/-- `vmap_page_range`. The end of the reported region is computed with an `int` product. -/
def vmapPageRange (k : Krnl) (addr : Addr) (pgnum : BitVec 32) (frames : List ℕ) : Krnl × VmRg :=
  (vmapPageRangeLoop addr pgnum.toInt k 0 frames,
    ⟨addr, addr + (pgnum * BitVec.ofNat 32 pagingPagesz).signExtend 64⟩)

/-- The loop of `alloc_pages_range` with `n` rounds left and the list built so far; a new node goes behind the
tail. -/
def allocPagesRangeLoop (mram : Memphy) (frmLst : List ℕ) : ℕ → Memphy × List ℕ
  | 0 => (mram, frmLst)
  | n + 1 =>
    match mram.getFreefp with
    | none => (mram, frmLst)
    | some (fpn, mram) => allocPagesRangeLoop mram (frmLst ++ [fpn]) n

/-- `alloc_pages_range`: the list of frames and the value returned. The number `allocated` is the length of the
list. -/
def allocPagesRange (k : Krnl) (reqPgnum : BitVec 32) : Krnl × List ℕ × Addr :=
  let (mram, frmLst) := allocPagesRangeLoop k.mram [] reqPgnum.toInt.toNat
  let allocated := frmLst.length
  ({ k with mram }, frmLst, if (allocated : Int) = reqPgnum.toInt then 0 else BitVec.ofNat 64 allocated)

/-- `vm_map_ram`. The frame list it maps is empty: it is never filled from the free list. -/
def vmMapRam (k : Krnl) (mapstart : Addr) (incpgnum : BitVec 32) : Krnl × VmRg :=
  vmapPageRange k mapstart incpgnum []

end SimpleOS.Model
