import SimpleOS.Lib.ByteMemory
import SimpleOS.Model.Bits

/-! # Physical memory devices

`mm-memphy.c` is an empty file, so the MEMPHY driver is an assumption of the development. Taking a
free frame removes the head of the free list and fails when the list is empty; reading and writing
access the single byte at a physical address and succeed exactly below `maxsz`. Giving a frame back
adds it to the free list at a place the driver chooses: `Driver` carries that choice.

Frame numbers are naturals. They come from the free list of a device of at most 8192 frames or from
the 13-bit field of an entry, so no product with the page size wraps.
-/

namespace SimpleOS.Model

open Lib

/-- Where `MEMPHY_put_freefp` inserts the frame it is given. -/
structure Driver where
  put : List ℕ → ℕ → List ℕ
  put_perm : ∀ frames fpn, (put frames fpn).Perm (fpn :: frames)

/-- A driver that gives frames back at the head, as a linked free list does. -/
def Driver.head : Driver where
  put frames fpn := fpn :: frames
  put_perm _ _ := .refl _

/-- `struct memphy_struct`: the storage, its size in bytes and the list of free frames. The cursor
and the list of used frames belong to the missing driver. -/
structure Memphy where
  storage : Bytes
  maxsz : ℕ
  freeFpList : List ℕ

namespace Memphy

/-- `MEMPHY_get_freefp`. -/
def getFreefp (mp : Memphy) : Option (ℕ × Memphy) :=
  match mp.freeFpList with
  | [] => none
  | fpn :: rest => some (fpn, { mp with freeFpList := rest })

/-- `MEMPHY_put_freefp`. -/
def putFreefp (driver : Driver) (mp : Memphy) (fpn : ℕ) : Memphy :=
  { mp with freeFpList := driver.put mp.freeFpList fpn }

/-- `MEMPHY_read`. -/
def read (mp : Memphy) (addr : ℕ) : Option (BitVec 8) :=
  if addr < mp.maxsz then some (mp.storage addr) else none

/-- `MEMPHY_write`. -/
def write (mp : Memphy) (addr : ℕ) (data : BitVec 8) : Option Memphy :=
  if addr < mp.maxsz then some { mp with storage := mp.storage.writeByte addr data } else none

/-- The entry `table[i]` of the table in frame `fpn`. -/
def entry (mp : Memphy) (fpn : ℕ) (i : Fin 512) : Addr :=
  mp.storage.readWord (fpn * pagingPagesz + 8 * i)

/-- The assignment `table[i] = v` in frame `fpn`. -/
def setEntry (mp : Memphy) (fpn : ℕ) (i : Fin 512) (v : Addr) : Memphy :=
  { mp with storage := mp.storage.writeWord (fpn * pagingPagesz + 8 * i) v }

/-- The first `n` rounds of the loop that sets every entry of a new table to zero. -/
def clearEntries (mp : Memphy) (fpn : ℕ) : ℕ → Memphy
  | 0 => mp
  | n + 1 =>
    let cleared := mp.clearEntries fpn n
    { cleared with storage := cleared.storage.writeWord (fpn * pagingPagesz + 8 * n) 0 }

end Memphy

/-- A fresh device of `frames` frames whose free list is `0, 1, …, frames - 1`. -/
def initMemphy (frames : ℕ) (contents : Bytes) : Memphy where
  storage := contents
  maxsz := frames * pagingPagesz
  freeFpList := List.range frames

end SimpleOS.Model
