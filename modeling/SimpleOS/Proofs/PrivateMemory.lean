import SimpleOS.Proofs.Faults
import SimpleOS.Proofs.Held

/-! # The memory a process sees

An address of a process keeps its low 22 bits. What the process sees there is the byte in the frame of the page,
and zero as long as the page has no frame. As long as the free frames are zero, `pg_getpage` changes nothing that
anybody sees, and `pg_setval` changes one byte of one process.
-/

namespace SimpleOS.Model

open Lib

variable {ι : Type} [DecidableEq ι] {others : ι → Fin 512 → Addr} {P Q : ι} {k k' : Krnl} {n : ℕ}

/-- The byte a process sees at an address. -/
def byteSeen (links : Links (Root ι) 512) (mram : Memphy) (Q : ι) (a : BitVec 22) : BitVec 8 :=
  (byteAt links mram Q (pageOf (a.setWidth 32)) (offsetOf (a.setWidth 32))).getD 0

/-- The free frames are zero. -/
def Memphy.Blank (mp : Memphy) : Prop := ∀ a, a / pagingPagesz ∈ mp.freeFpList → mp.storage a = 0

theorem Memphy.blank_init (n : ℕ) : (initMemphy n fun _ => 0).Blank := fun _ _ => rfl

private theorem pagingPgn_low (addr : BitVec 32) : pagingPgn ((addr.setWidth 22).setWidth 32) = pagingPgn addr := by
  rw [← BitVec.toNat_inj, pagingPgn_toNat _ (by omega), pagingPgn_toNat _ (by omega), BitVec.toNat_setWidth,
    BitVec.toNat_setWidth]
  omega

private theorem pageOf_low_bits (addr : BitVec 32) : pageOf ((addr.setWidth 22).setWidth 32) = pageOf addr :=
  congrArg (BitVec.signExtend 64) (pagingPgn_low addr)

private theorem offsetOf_low_bits (addr : BitVec 32) : offsetOf ((addr.setWidth 22).setWidth 32) = offsetOf addr := by
  rw [offsetOf, offsetOf, pagingOffst_toNat _ (by omega), pagingOffst_toNat _ (by omega), BitVec.toNat_setWidth,
    BitVec.toNat_setWidth]
  omega

/-- Page and offset determine the 22 bits. -/
private theorem low_bits_injective {a b : BitVec 22}
    (page : pdOf (pageOf (a.setWidth 32)) = pdOf (pageOf (b.setWidth 32)))
    (offset : offsetOf (a.setWidth 32) = offsetOf (b.setWidth 32)) : a = b := by
  have pages := congrArg BitVec.toNat (pdOf_pageOf_injective page)
  rw [offsetOf, offsetOf, pagingOffst_toNat _ (by omega), pagingOffst_toNat _ (by omega)] at offset
  rw [pagingPgn_toNat _ (by omega), pagingPgn_toNat _ (by omega)] at pages
  simp only [BitVec.toNat_setWidth] at pages offset
  apply BitVec.eq_of_toNat_eq
  have boundA := a.isLt
  have boundB := b.isLt
  omega

/-- After a routine of `P`, the process sees `bytes` and the others see what they saw; the free frames are zero. -/
structure Shows (others : ι → Fin 512 → Addr) (P : ι) (k k' : Krnl) (bytes : BitVec 22 → BitVec 8) : Prop where
  own : byteSeen (k'.links others P) k'.mram P = bytes
  foreign : ∀ Q, Q ≠ P → byteSeen (k'.links others P) k'.mram Q = byteSeen (k.links others P) k.mram Q
  blank : k'.mram.Blank

/-- The routine changed nothing that anybody sees. -/
abbrev ShowsSame (others : ι → Fin 512 → Addr) (P : ι) (k k' : Krnl) : Prop :=
  Shows others P k k' (byteSeen (k.links others P) k.mram P)

theorem ShowsSame.refl (others : ι → Fin 512 → Addr) (P : ι) (blank : k.mram.Blank) : ShowsSame others P k k :=
  ⟨rfl, fun _ _ => rfl, blank⟩

theorem ShowsSame.trans {k'' : Krnl} {bytes : BitVec 22 → BitVec 8} (first : ShowsSame others P k k')
    (second : Shows others P k' k'' bytes) : Shows others P k k'' bytes where
  own := second.own
  foreign Q other := (second.foreign Q other).trans (first.foreign Q other)
  blank := second.blank

theorem ShowsSame.of_same (blank : k.mram.Blank) (pgd : k'.mm.pgd = k.mm.pgd) (mram : k'.mram = k.mram) :
    ShowsSame others P k k' := by
  have roots : rootsOf others P k' = rootsOf others P k := by rw [rootsOf, rootsOf, pgd]
  have links : k'.links others P = k.links others P := by rw [Krnl.links, Krnl.links, roots, mram]
  exact ⟨by rw [links, mram], fun Q _ => by rw [links, mram], by rw [mram]; exact blank⟩

/-- The page that a fault maps was free, so its bytes are the zeros that were seen there before. -/
private theorem Faulted.shows {pgn : Addr} {result : Krnl × Option ℕ} {filling : List (List (Fin 512) × ℕ)}
    (blank : k.mram.Blank) (paged : Paged others P k result.1)
    (faulted : Faulted others P k pgn result filling) : ShowsSame others P k result.1 := by
  have seen (Q : ι) : byteSeen (result.1.links others P) result.1.mram Q = byteSeen (k.links others P) k.mram Q := by
    funext a
    rw [byteSeen, byteSeen]
    cases held : byteAt (k.links others P) k.mram Q (pageOf (a.setWidth 32)) (offsetOf (a.setWidth 32)) with
    | some b => rw [paged.byteAt (offsetOf_lt _) held]
    | none =>
      have before := Option.map_eq_none_iff.mp held
      have short : (pagePath (pageOf (a.setWidth 32))).length < 5 := by
        rw [pagePath_length]
        omega
      rw [byteAt]
      cases after : (result.1.links others P).frameAt (pageRoot Q (pageOf (a.setWidth 32)))
          (pagePath (pageOf (a.setWidth 32))) with
      | none => rfl
      | some f =>
        have root : pageRoot Q (pageOf (a.setWidth 32)) = pageRoot P pgn := by
          by_contra other
          rw [faulted.fills.elsewhere _ _ short other, before] at after
          cases after
        rw [root] at before after
        rw [faulted.fills.below _ short, before, Option.or_none] at after
        have member := Links.mem_of_lookup after
        have named := List.mem_of_mem_filter (faulted.empty _ member)
        have path : pagePath (pageOf (a.setWidth 32)) = pagePath pgn := by
          rw [Pd.pagePaths, List.mem_append, List.mem_singleton] at named
          rcases named with table | page
          · have shallow : ∀ path ∈ (pdOf pgn).tablePaths, path.length < 4 := by simp [Pd.tablePaths, Pd.tablePath]
            exact absurd (shallow _ table) (by rw [pagePath_length]; omega)
          · exact page
        rw [path] at member
        obtain ⟨free, bytes⟩ := faulted.page f member
        have inside := frame_of_byte (f := f) (offsetOf_lt (a.setWidth 32))
        rw [Option.map_some, Option.getD_some, bytes _ inside]
        exact blank _ (by rw [inside]; exact free)
  refine ⟨seen P, fun Q _ => seen Q, fun a free => ?_⟩
  rw [faulted.idle.bytes a free]
  exact blank a (faulted.idle.free _ free)

private theorem pgGetpage_shows (owned : Owned n (k.links others P) k.mram) (blank : k.mram.Blank) (driver : Driver)
    (pgn : BitVec 32) : ShowsSame others P k (pgGetpage driver k pgn).1 := by
  by_cases outside : pgn.toInt < 0 ∨ (pagingMaxPgn : Int) ≤ pgn.toInt
  · rw [pgGetpage, if_pos outside]
    exact .refl others P blank
  · cases present : pagingPtePresent (pteGetEntry k (pgn.signExtend 64)) with
    | true =>
      simp only [pgGetpage, if_neg outside, present, if_true]
      exact .refl others P blank
    | false =>
      obtain ⟨filling, faulted⟩ := pgGetpage_faulted owned driver outside present
      exact faulted.shows blank (pgGetpage_fetched owned driver pgn).paged

/-- A byte stored in the frame of a page is seen by its process, at its address. -/
private theorem storeByte_shows (owned : Owned n (k.links others P) k.mram) (blank : k.mram.Blank) {addr : BitVec 32}
    {f : ℕ} (page : (k.links others P).frameAt (pageRoot P (pageOf addr)) (pagePath (pageOf addr)) = some f)
    (v : BitVec 8) : Shows others P k (k.storeByte f (offsetOf addr) v)
      (Function.update (byteSeen (k.links others P) k.mram P) (addr.setWidth 22) v) := by
  have bound := offsetOf_lt addr
  refine ⟨?_, fun Q other => ?_, fun a free => ?_⟩
  · funext a
    by_cases here : a = addr.setWidth 22
    · subst here
      rw [Function.update_self, byteSeen, pageOf_low_bits, offsetOf_low_bits,
        byteAt_storeByte_same owned page bound v, Option.getD_some]
    · rw [Function.update_of_ne here, byteSeen, byteSeen,
        byteAt_storeByte_other owned page bound (offsetOf_lt _) v]
      intro pages offsets
      rw [← pageOf_low_bits] at pages
      rw [← offsetOf_low_bits] at offsets
      exact here (low_bits_injective pages offsets).symm
  · funext a
    rw [byteSeen, byteSeen, (Spares.storeByte owned page bound v).byteAt other (offsetOf_lt _)]
  · have elsewhere : a ≠ f * pagingPagesz + offsetOf addr := by
      rintro rfl
      rw [frame_of_byte bound] at free
      exact owned.frames.used_free f ⟨_, _, by rw [pagePath_length]; omega, page⟩ free
    exact (Bytes.writeByte_ne v elsewhere).trans (blank a free)

/-- `pg_getval` delivers the byte that the process sees. -/
private theorem pgGetval_shows (owned : Owned n (k.links others P) k.mram) (blank : k.mram.Blank) (driver : Driver)
    (addr : BitVec 32) : ShowsSame others P k (pgGetval driver k addr).1 ∧
      ∀ b, (pgGetval driver k addr).2 = some b →
        b = byteSeen (k.links others P) k.mram P (addr.setWidth 22) := by
  have shows : ShowsSame others P k (pgGetval driver k addr).1 := by
    have fetched := pgGetpage_shows owned blank driver (pagingPgn addr)
    rw [pgGetval]
    generalize pgGetpage driver k (pagingPgn addr) = result at fetched
    rcases result with ⟨k', _ | f⟩
    · exact fetched
    · exact fetched
  refine ⟨shows, fun b delivered => ?_⟩
  have held := (pgGetval_fetched owned driver addr).2.2 b delivered
  rw [← shows.own, byteSeen, pageOf_low_bits, offsetOf_low_bits, held, Option.getD_some]

/-- `pg_setval` changes the byte at the address, or nothing that is seen. -/
private theorem pgSetval_shows (owned : Owned n (k.links others P) k.mram) (blank : k.mram.Blank) (driver : Driver)
    (addr : BitVec 32) (v : BitVec 8) : Shows others P k (pgSetval driver k addr v).1
      (if (pgSetval driver k addr v).2 = 0 then
        Function.update (byteSeen (k.links others P) k.mram P) (addr.setWidth 22) v
      else byteSeen (k.links others P) k.mram P) := by
  have shows := pgGetpage_shows owned blank driver (pagingPgn addr)
  have fetched := pgGetpage_fetched owned driver (pagingPgn addr)
  rw [pgSetval]
  generalize pgGetpage driver k (pagingPgn addr) = result at shows fetched
  rcases result with ⟨k', _ | f⟩
  · exact shows
  · have inRam := fetched.owned.inRam (by rw [pagePath_length]; omega) (fetched.reached f rfl) (offsetOf_lt addr)
    have stored : k'.mram.write (f * pagingPagesz + (pagingOffst addr).toNat) v =
        some (k'.storeByte f (offsetOf addr) v).mram := if_pos inRam
    simp only [stored, if_true]
    have after := storeByte_shows fetched.owned shows.blank (fetched.reached f rfl) v
    rw [shows.own] at after
    exact shows.trans after

namespace Libmem

/-- The byte that `__read` delivers is the one the process sees at the address. -/
theorem read_shows (owned : Owned n (k.links others P) k.mram) (blank : k.mram.Blank) (driver : Driver)
    (rgid : BitVec 32) (offset : Addr) : ShowsSame others P k (read driver k 0 rgid offset).1 ∧
      ∀ b addr, (read driver k 0 rgid offset).2 = some b → (target k 0 rgid offset).2 = some addr →
        b = byteSeen (k.links others P) k.mram P (addr.setWidth 22) := by
  have opened := (target_opened k rgid offset).1
  have same : ShowsSame others P k (target k 0 rgid offset).1 := .of_same blank opened.pgd opened.mram
  have owned' := (target_paged owned rgid offset).1
  rw [read]
  generalize target k 0 rgid offset = result at same owned'
  rcases result with ⟨k', _ | addr⟩
  · exact ⟨same, fun b addr delivered => by cases delivered⟩
  · obtain ⟨later, value⟩ := pgGetval_shows owned' same.blank driver (addr.setWidth 32)
    have shows := same.trans later
    rw [same.own] at shows value
    refine ⟨shows, ?_⟩
    rintro b _ delivered ⟨⟩
    have low : (addr.setWidth 32).setWidth 22 = addr.setWidth 22 := by bv_omega
    rw [← low]
    exact value b delivered

/-- A successful `__write` changes one byte of its process, and a failed one none. -/
theorem write_shows (owned : Owned n (k.links others P) k.mram) (blank : k.mram.Blank) (driver : Driver)
    (rgid : BitVec 32) (offset : Addr) (v : BitVec 8) : Shows others P k (write driver k 0 rgid offset v).1
      (match (target k 0 rgid offset).2 with
      | none => byteSeen (k.links others P) k.mram P
      | some addr =>
        if (write driver k 0 rgid offset v).2 = 0 then
          Function.update (byteSeen (k.links others P) k.mram P) (addr.setWidth 22) v
        else byteSeen (k.links others P) k.mram P) := by
  have opened := (target_opened k rgid offset).1
  have same : ShowsSame others P k (target k 0 rgid offset).1 := .of_same blank opened.pgd opened.mram
  have owned' := (target_paged owned rgid offset).1
  rw [write]
  generalize target k 0 rgid offset = result at same owned'
  rcases result with ⟨k', _ | addr⟩
  · exact same
  · have shows := pgSetval_shows owned' same.blank driver (addr.setWidth 32) v
    have low : (addr.setWidth 32).setWidth 22 = addr.setWidth 22 := by bv_omega
    rw [same.own, low] at shows
    exact same.trans shows

end Libmem

end SimpleOS.Model
