import Mathlib.Data.BitVec

/-! # Bit fields of addresses and page table entries

The macros of `bitops.h`, `mm.h` and `mm64.h`. The masks of `mm.h` are `unsigned int` expressions,
so a complemented mask has 32 bits when it meets a 64-bit entry: `CLRBIT` and `SETVAL` clear the
upper half of the entry as well.
-/

namespace SimpleOS.Model

/-- `addr_t` and `arg_t` of the 64-bit build. -/
abbrev Addr := BitVec 64

/-- `BIT(nr)`. -/
def bit (nr : ℕ) : BitVec 32 := 1#32 <<< nr

/-- `GENMASK(h, l)`, with `BITS_PER_LONG` 32. -/
def genmask (h l : ℕ) : BitVec 32 := (~~~0#32 <<< l) &&& (~~~0#32 >>> (32 - h - 1))

/-- `GENMASK64(h, l)`. -/
def genmask64 (h l : ℕ) : BitVec 64 := (~~~0#64 <<< l) &&& (~~~0#64 >>> (64 - h - 1))

def nbits2 (n : ℕ) : ℕ := if n &&& 2 ≠ 0 then 1 else 0
def nbits4 (n : ℕ) : ℕ := if n &&& 0xC ≠ 0 then 2 + nbits2 (n >>> 2) else nbits2 n
def nbits8 (n : ℕ) : ℕ := if n &&& 0xF0 ≠ 0 then 4 + nbits4 (n >>> 4) else nbits4 n
def nbits16 (n : ℕ) : ℕ := if n &&& 0xFF00 ≠ 0 then 8 + nbits8 (n >>> 8) else nbits8 n
def nbits32 (n : ℕ) : ℕ := if n &&& 0xFFFF0000 ≠ 0 then 16 + nbits16 (n >>> 16) else nbits16 n

/-- `NBITS(n)`. -/
def nbits (n : ℕ) : ℕ := if n = 0 then 0 else nbits32 n

/-- `SETBIT(v, mask)`. -/
def setBit (v : Addr) (mask : BitVec 32) : Addr := v ||| mask.setWidth 64

/-- `CLRBIT(v, mask)`. -/
def clrBit (v : Addr) (mask : BitVec 32) : Addr := v &&& (~~~mask).setWidth 64

/-- `SETVAL(v, value, mask, offst)`. -/
def setVal (v value : Addr) (mask : BitVec 32) (offst : ℕ) : Addr :=
  (v &&& (~~~mask).setWidth 64) ||| ((value <<< offst) &&& mask.setWidth 64)

/-- `GETVAL(v, mask, offst)`, at the width of `v`. -/
def getVal {n : ℕ} (v : BitVec n) (mask : BitVec 32) (offst : ℕ) : BitVec n :=
  (v &&& mask.setWidth n) >>> offst

def pagingPagesz : ℕ := 4096
def pagingCpuBusWidth : ℕ := 22

/-- `PAGING_MAX_PGN`. -/
def pagingMaxPgn : ℕ := ((bit pagingCpuBusWidth).toNat + pagingPagesz - 1) / pagingPagesz

def pagingPtePresentMask : BitVec 32 := bit 31
def pagingPteSwappedMask : BitVec 32 := bit 30
def pagingPteDirtyMask : BitVec 32 := bit 28
def pagingPteFpnMask : BitVec 32 := genmask 12 0
def pagingPteSwptypMask : BitVec 32 := genmask 4 0
def pagingPteSwpoffMask : BitVec 32 := genmask 25 5
def pagingAddrPgnLobit : ℕ := nbits pagingPagesz
def pagingOffstMask : BitVec 32 := genmask (nbits pagingPagesz - 1) 0
def pagingPgnMask : BitVec 32 := genmask (pagingCpuBusWidth - 1) pagingAddrPgnLobit

/-- `PAGING_PTE_PRESENT(pte)` as a truth value, at the width of the entry. -/
def pagingPtePresent {n : ℕ} (pte : BitVec n) : Bool := pte &&& pagingPtePresentMask.setWidth n != 0

/-- The swapped bit of an entry as a truth value, at the width of the entry. -/
def pagingPteSwapped {n : ℕ} (pte : BitVec n) : Bool := pte &&& pagingPteSwappedMask.setWidth n != 0

/-- `PAGING_PTE_FPN(pte)` and `PAGING_FPN(pte)`: the frame number of an entry. -/
def pagingPteFpn {n : ℕ} (pte : BitVec n) : ℕ := (getVal pte pagingPteFpnMask 0).toNat

/-- The swap type of an entry. -/
def pagingPteSwptyp {n : ℕ} (pte : BitVec n) : BitVec n := getVal pte pagingPteSwptypMask 0

/-- `PAGING_PTE_SWP(pte)`: the swap offset of an entry. -/
def pagingPteSwp {n : ℕ} (pte : BitVec n) : BitVec n := getVal pte pagingPteSwpoffMask 5

/-- `PAGING_PGN(x)`. -/
def pagingPgn {n : ℕ} (x : BitVec n) : BitVec n := getVal x pagingPgnMask pagingAddrPgnLobit

/-- `PAGING_OFFST(x)`. -/
def pagingOffst {n : ℕ} (x : BitVec n) : BitVec n := getVal x pagingOffstMask 0

/-- The five table indices of a page. `get_pd_from_address` rejects an index of 512 or more, so an
accepted page carries the bounds. -/
structure Pd where
  pgd : Fin 512
  p4d : Fin 512
  pud : Fin 512
  pmd : Fin 512
  pt : Fin 512
deriving DecidableEq, Repr

/-- `get_pd_from_address`. -/
def getPdFromAddress (addr : Addr) : Option Pd :=
  let pgd := ((addr &&& genmask64 56 48) >>> 48).toNat
  let p4d := ((addr &&& genmask64 47 39) >>> 39).toNat
  let pud := ((addr &&& genmask64 38 30) >>> 30).toNat
  let pmd := ((addr &&& genmask64 29 21) >>> 21).toNat
  let pt := ((addr &&& genmask64 20 12) >>> 12).toNat
  if h₁ : pgd < 512 then
    if h₂ : p4d < 512 then
      if h₃ : pud < 512 then
        if h₄ : pmd < 512 then
          if h₅ : pt < 512 then some ⟨⟨pgd, h₁⟩, ⟨p4d, h₂⟩, ⟨pud, h₃⟩, ⟨pmd, h₄⟩, ⟨pt, h₅⟩⟩
          else none
        else none
      else none
    else none
  else none

/-- `get_pd_from_pagenum`. -/
def getPdFromPagenum (pgn : Addr) : Option Pd := getPdFromAddress (pgn <<< 12)

end SimpleOS.Model
