import Mathlib.Algebra.Order.BigOperators.Group.Finset
import SimpleOS.Proofs.Faults

/-! # How many frames a process can take

The page numbers that `pg_getval` and `pg_setval` look up are below `PAGING_MAX_PGN`, so a process fills at most
1024 leaf entries, and the five tables above them. Every fault takes as many frames from the free list as it fills
positions. RAM that has 1029 frames for each process therefore never runs out.
-/

namespace SimpleOS.Model

open Lib

variable {ι : Type} [DecidableEq ι] {others : ι → Fin 512 → Addr} {P Q : ι} {r : Root ι} {k k' k'' : Krnl}
  {n cost cost' : ℕ} {driver : Driver}

/-- The tables above the pages below `PAGING_MAX_PGN`. -/
def lowTables : List (List (Fin 512)) := (pdOf 0).tablePaths ++ [(pdOf 512).tablePath]

/-- The frames of these pages. -/
def lowPages : List (List (Fin 512)) := (List.range pagingMaxPgn).map fun pgn => pagePath (BitVec.ofNat 64 pgn)

/-- All positions that a process can fill. -/
def lowPaths : List (List (Fin 512)) := lowTables ++ lowPages

private theorem lowPages_length : lowPages.length = 1024 := by
  rw [lowPages, List.length_map, List.length_range, pagingMaxPgn_eq]

private theorem lowPaths_length : lowPaths.length = 1029 := by
  rw [lowPaths, List.length_append, lowPages_length]
  rfl

private theorem lowPaths_short : ∀ path ∈ lowPaths, path.length < 5 := by
  intro path member
  rcases List.mem_append.mp member with table | page
  · rcases List.mem_append.mp table with lower | upper
    · exact (pdOf 0).pagePaths_short path (List.mem_append_left _ lower)
    · rw [List.mem_singleton.mp upper]
      simp [Pd.tablePath]
  · obtain ⟨pgn, -, rfl⟩ := List.mem_map.mp page
    rw [pagePath_length]
    omega

/-- A low page lies in the first or the second page table. -/
theorem pdOf_low {pgn : ℕ} (low : pgn < pagingMaxPgn) :
    (pdOf (BitVec.ofNat 64 pgn)).pgd = (pdOf 0).pgd ∧
      ((pdOf (BitVec.ofNat 64 pgn)).tablePaths = (pdOf 0).tablePaths ∨
        (pdOf (BitVec.ofNat 64 pgn)).tablePaths = (pdOf 512).tablePaths) := by
  rw [pagingMaxPgn_eq] at low
  have value : (BitVec.ofNat 64 pgn).toNat = pgn := by
    rw [BitVec.toNat_ofNat]
    omega
  have pgd : (pdOf (BitVec.ofNat 64 pgn)).pgd = (pdOf 0).pgd := Fin.ext (by simp only [pdOf, value]; simp; omega)
  have p4d : (pdOf (BitVec.ofNat 64 pgn)).p4d = (pdOf 0).p4d := Fin.ext (by simp only [pdOf, value]; simp; omega)
  have pud : (pdOf (BitVec.ofNat 64 pgn)).pud = (pdOf 0).pud := Fin.ext (by simp only [pdOf, value]; simp; omega)
  have pmd : (pdOf (BitVec.ofNat 64 pgn)).pmd = (pdOf 0).pmd ∨ (pdOf (BitVec.ofNat 64 pgn)).pmd = (pdOf 512).pmd := by
    simp only [Fin.ext_iff, pdOf, value]
    simp
    omega
  refine ⟨pgd, ?_⟩
  rw [Pd.tablePaths, Pd.tablePath, p4d, pud]
  rcases pmd with first | second
  · rw [first]
    exact .inl rfl
  · rw [second]
    exact .inr rfl

theorem lowPaths_nodup : lowPaths.Nodup := by
  rw [lowPaths, lowTables, lowPages, List.nodup_append]
  refine ⟨?_, ?_, ?_⟩
  · simp [Pd.tablePaths, Pd.tablePath, pdOf]
  · refine List.Nodup.map_on ?_ List.nodup_range
    intro p low q low' same
    rw [List.mem_range, pagingMaxPgn_eq] at low low'
    have pt := congrArg Fin.val (List.cons.inj same).1
    have pmd := congrArg Fin.val (List.cons.inj (List.cons.inj same).2).1
    simp only [pdOf, BitVec.toNat_ofNat] at pt pmd
    omega
  · rintro path table _ page rfl
    obtain ⟨pgn, -, same⟩ := List.mem_map.mp page
    have deep := pagePath_length (BitVec.ofNat 64 pgn)
    rw [same] at deep
    simp [Pd.tablePaths, Pd.tablePath] at table
    rcases table with rfl | rfl | rfl | rfl | rfl <;> simp at deep

theorem tablePaths_low {pgn : ℕ} (low : pgn < pagingMaxPgn) :
    ∀ path ∈ (pdOf (BitVec.ofNat 64 pgn)).tablePaths, path ∈ lowTables := by
  intro path table
  have first : (pdOf 0).tablePaths = [[], [(pdOf 0).p4d], [(pdOf 0).pud, (pdOf 0).p4d]] ++ [(pdOf 0).tablePath] := rfl
  have second : (pdOf 512).tablePaths = [[], [(pdOf 0).p4d], [(pdOf 0).pud, (pdOf 0).p4d]] ++ [(pdOf 512).tablePath] :=
    rfl
  rw [lowTables]
  rcases (pdOf_low low).2 with same | same
  · rw [same] at table
    exact List.mem_append_left _ table
  · rw [same, second] at table
    rcases List.mem_append.mp table with above | last
    · rw [first]
      exact List.mem_append_left _ (List.mem_append_left _ above)
    · exact List.mem_append_right _ last

private theorem pagePath_low {pgn : ℕ} (low : pgn < pagingMaxPgn) : pagePath (BitVec.ofNat 64 pgn) ∈ lowPages :=
  List.mem_map_of_mem (List.mem_range.mpr low)

private theorem pagePaths_low {pgn : ℕ} (low : pgn < pagingMaxPgn) :
    ∀ path ∈ (pdOf (BitVec.ofNat 64 pgn)).pagePaths, path ∈ lowPaths := by
  intro path member
  rcases List.mem_append.mp member with table | page
  · exact List.mem_append_left _ (tablePaths_low low path table)
  · rw [List.mem_singleton.mp page]
    exact List.mem_append_right _ (pagePath_low low)

/-- The page of an address is one of those. -/
private theorem pageOf_low (addr : BitVec 32) : ∃ pgn < pagingMaxPgn, pageOf addr = BitVec.ofNat 64 pgn := by
  refine ⟨(pageOf addr).toNat, ?_, ((BitVec.ofNat_toNat 64 (pageOf addr)).trans (BitVec.setWidth_eq _)).symm⟩
  rw [pageOf_toNat, pagingMaxPgn_eq]
  omega

/-- The positions that process `P` has not filled. -/
def demand (links : Links (Root ι) 512) (P : ι) : ℕ := (links.missing (P, (pdOf 0).pgd) lowPaths).length

/-- The pages among them. -/
def leftPages (links : Links (Root ι) 512) (P : ι) : ℕ := (links.missing (P, (pdOf 0).pgd) lowPages).length

section Positions

variable {links links' : Links (Root ι) 512}

omit [DecidableEq ι]

private theorem missing_congr {paths : List (List (Fin 512))} (short : ∀ path ∈ paths, path.length < 5)
    (same : ∀ path, path.length < 5 → links'.frameAt r path = links.frameAt r path) :
    links'.missing r paths = links.missing r paths := by
  apply List.filter_congr
  intro path member
  rw [same path (short path member)]

theorem demand_split (links : Links (Root ι) 512) (P : ι) :
    demand links P = (links.missing (P, (pdOf 0).pgd) lowTables).length + leftPages links P := by
  rw [demand, leftPages, lowPaths, Links.missing, List.filter_append, List.length_append]
  rfl

private theorem lowPages_short : ∀ path ∈ lowPages, path.length < 5 :=
  fun path member => lowPaths_short path (List.mem_append_right _ member)

private theorem demand_congr
    (same : ∀ path, path.length < 5 → links'.frameAt (P, (pdOf 0).pgd) path = links.frameAt (P, (pdOf 0).pgd) path) :
    demand links' P = demand links P ∧ leftPages links' P = leftPages links P := by
  rw [demand, demand, leftPages, leftPages, missing_congr lowPaths_short same, missing_congr lowPages_short same]
  exact ⟨rfl, rfl⟩

end Positions

/-- `P` pays for the positions it fills with frames of the free list, and for no more pages than `cost`. -/
structure Pays (others : ι → Fin 512 → Addr) (P : ι) (cost : ℕ) (k k' : Krnl) : Prop where
  own : k.mram.freeFpList.length + demand (k'.links others P) P =
    k'.mram.freeFpList.length + demand (k.links others P) P
  pages : leftPages (k.links others P) P ≤ leftPages (k'.links others P) P + cost
  other : ∀ Q, Q ≠ P → demand (k'.links others P) Q = demand (k.links others P) Q ∧
    leftPages (k'.links others P) Q = leftPages (k.links others P) Q

theorem Pays.refl (others : ι → Fin 512 → Addr) (P : ι) (cost : ℕ) (k : Krnl) : Pays others P cost k k :=
  ⟨rfl, Nat.le_add_right _ _, fun _ _ => ⟨rfl, rfl⟩⟩

theorem Pays.trans (first : Pays others P cost k k') (second : Pays others P cost' k' k'') :
    Pays others P (cost + cost') k k'' where
  own := by
    have before := first.own
    have after := second.own
    omega
  pages := by
    have before := first.pages
    have after := second.pages
    omega
  other Q different := by
    obtain ⟨demand, pages⟩ := first.other Q different
    obtain ⟨demand', pages'⟩ := second.other Q different
    exact ⟨demand'.trans demand, pages'.trans pages⟩

private theorem Pays.of_frames (free : k'.mram.freeFpList = k.mram.freeFpList)
    (same : ∀ r path, path.length < 5 → (k'.links others P).frameAt r path = (k.links others P).frameAt r path) :
    Pays others P 0 k k' where
  own := by rw [free, (demand_congr (same _)).1]
  pages := by rw [(demand_congr (same _)).2, Nat.add_zero]
  other Q _ := demand_congr (same _)

theorem Pays.mono (pays : Pays others P cost k k') (le : cost ≤ cost') : Pays others P cost' k k' :=
  ⟨pays.own, pays.pages.trans (Nat.add_le_add_left le _), pays.other⟩

/-- The positions that a fault fills are those of one low page. -/
private theorem Faulted.pays {pgn : ℕ} {result : Krnl × Option ℕ} {filling : List (List (Fin 512) × ℕ)}
    (low : pgn < pagingMaxPgn) (faulted : Faulted others P k (BitVec.ofNat 64 pgn) result filling) :
    Pays others P 1 k result.1 := by
  have root : pageRoot P (BitVec.ofNat 64 pgn) = (P, (pdOf 0).pgd) := congrArg (P, ·) (pdOf_low low).1
  have fills := faulted.fills
  rw [root] at fills
  refine ⟨?_, ?_, fun Q different => demand_congr fun path short => ?_⟩
  · have empty : ∀ entry ∈ filling, entry.1 ∈ (k.links others P).missing (P, (pdOf 0).pgd) lowPaths := by
      intro entry member
      obtain ⟨named, absent⟩ := List.mem_filter.mp (faulted.empty entry member)
      rw [root] at absent
      exact List.mem_filter.mpr ⟨pagePaths_low low _ named, absent⟩
    have filled := fills.missing_length lowPaths_short lowPaths_nodup faulted.once empty
    have taken := faulted.taken
    rw [demand, demand]
    omega
  · have distinct : ((k.links others P).missing (P, (pdOf 0).pgd) lowPages).Nodup :=
      (List.Nodup.of_append_right lowPaths_nodup).filter _
    have inside : ((k.links others P).missing (P, (pdOf 0).pgd) lowPages).erase (pagePath (BitVec.ofNat 64 pgn)) ⊆
        (result.1.links others P).missing (P, (pdOf 0).pgd) lowPages := by
      intro path member
      obtain ⟨other, member⟩ := distinct.mem_erase_iff.mp member
      obtain ⟨page, absent⟩ := List.mem_filter.mp member
      have unfilled : filling.lookup path = none := by
        rw [Option.eq_none_iff_forall_ne_some]
        intro f found
        obtain ⟨named, -⟩ := List.mem_filter.mp (faulted.empty _ (Links.mem_of_lookup found))
        rcases List.mem_append.mp named with table | own
        · exact (List.nodup_append.mp lowPaths_nodup).2.2 path (tablePaths_low low path table) path page rfl
        · exact other (List.mem_singleton.mp own)
      refine List.mem_filter.mpr ⟨page, ?_⟩
      rw [fills.below path (lowPages_short path page), unfilled]
      exact absent
    have shorter := ((distinct.erase _).subperm inside).length_le
    rw [List.length_erase] at shorter
    rw [leftPages, leftPages]
    split_ifs at shorter <;> omega
  · apply faulted.fills.elsewhere _ path short
    exact fun same => different (congrArg Prod.fst same)

private theorem pgGetpage_pays (owned : Owned n (k.links others P) k.mram) (driver : Driver) (addr : BitVec 32) :
    Pays others P 1 k (pgGetpage driver k (pagingPgn addr)).1 := by
  cases present : pagingPtePresent (pteGetEntry k (pageOf addr)) with
  | true =>
    have found : pgGetpage driver k (pagingPgn addr) = (k, some (pagingPteFpn (pteGetEntry k (pageOf addr)))) := by
      rw [pageOf] at present ⊢
      simp only [pgGetpage, if_neg (pagingPgn_inRange addr), present, if_true]
    rw [found]
    exact .refl others P 1 k
  | false =>
    obtain ⟨filling, faulted⟩ := pgGetpage_faulted owned driver (pagingPgn_inRange addr) present
    obtain ⟨pgn, low, page⟩ := pageOf_low addr
    rw [← pageOf, page] at faulted
    exact faulted.pays low

private theorem pgGetval_pays (owned : Owned n (k.links others P) k.mram) (driver : Driver) (addr : BitVec 32) :
    Pays others P 1 k (pgGetval driver k addr).1 := by
  have pays := pgGetpage_pays owned driver addr
  rw [pgGetval]
  generalize pgGetpage driver k (pagingPgn addr) = result at pays
  rcases result with ⟨k', _ | f⟩ <;> exact pays

private theorem pgSetval_pays (owned : Owned n (k.links others P) k.mram) (driver : Driver) (addr : BitVec 32)
    (v : BitVec 8) : Pays others P 1 k (pgSetval driver k addr v).1 := by
  have pays := pgGetpage_pays owned driver addr
  have fetched := pgGetpage_fetched owned driver (pagingPgn addr)
  rw [pgSetval]
  generalize pgGetpage driver k (pagingPgn addr) = result at pays fetched
  rcases result with ⟨k', _ | f⟩
  · exact pays
  · have inRam := fetched.owned.inRam (by rw [pagePath_length]; omega) (fetched.reached f rfl) (offsetOf_lt addr)
    have stored : k'.mram.write (f * pagingPagesz + (pagingOffst addr).toNat) v =
        some (k'.storeByte f (offsetOf addr) v).mram := if_pos inRam
    simp only [stored]
    have stays : Pays others P 0 k' (k'.storeByte f (offsetOf addr) v) :=
      .of_frames rfl
        (frameAt_storeByte fetched.owned.frames (pagePath_length _) (fetched.reached f rfl) (offsetOf_lt addr) v)
    exact pays.trans stays

namespace Libmem

private theorem target_pays (k : Krnl) (rgid : BitVec 32) (offset : Addr) :
    Pays others P 0 k (target k 0 rgid offset).1 := by
  have opened := (target_opened k rgid offset).1
  refine .of_frames (congrArg Memphy.freeFpList opened.mram) fun r path short => ?_
  rw [Krnl.links, rootsOf, opened.pgd, opened.mram]

private theorem read_pays (owned : Owned n (k.links others P) k.mram) (driver : Driver) (rgid : BitVec 32)
    (offset : Addr) : Pays others P 1 k (read driver k 0 rgid offset).1 := by
  have first : Pays others P 0 k (target k 0 rgid offset).1 := target_pays k rgid offset
  have owned' := (target_paged owned rgid offset).1
  rw [read]
  generalize target k 0 rgid offset = result at first owned'
  rcases result with ⟨k', _ | addr⟩
  · exact first.mono (Nat.zero_le 1)
  · exact first.trans (pgGetval_pays owned' driver _)

private theorem write_pays (owned : Owned n (k.links others P) k.mram) (driver : Driver) (rgid : BitVec 32)
    (offset : Addr) (v : BitVec 8) : Pays others P 1 k (write driver k 0 rgid offset v).1 := by
  have first : Pays others P 0 k (target k 0 rgid offset).1 := target_pays k rgid offset
  have owned' := (target_paged owned rgid offset).1
  rw [write]
  generalize target k 0 rgid offset = result at first owned'
  rcases result with ⟨k', _ | addr⟩
  · exact first.mono (Nat.zero_le 1)
  · exact first.trans (pgSetval_pays owned' driver _ v)

end Libmem

/-- The pages that a call may fault in. -/
def Call.accesses : Call → ℕ
  | .read .. => 1
  | .write .. => 1
  | _ => 0

theorem Call.kernel_pays (owned : Owned n (k.links others P) k.mram) (driver : Driver) (call : Call) :
    Pays others P call.accesses k (call.kernel driver k) := by
  have same : ∀ {k' : Krnl}, k'.mm.pgd = k.mm.pgd ∧ k'.mram = k.mram → Pays others P 0 k k' := by
    rintro k' ⟨pgd, mram⟩
    refine .of_frames (congrArg Memphy.freeFpList mram) fun r path short => ?_
    rw [Krnl.links, rootsOf, pgd, mram]
  cases call with
  | alloc size reg => exact same (Libmem.alloc_memory k reg size)
  | free reg => exact same (Libmem.free_memory k reg)
  | read source offset => exact Libmem.read_pays owned driver source offset
  | write v destination offset => exact Libmem.write_pays owned driver destination offset v
  | inc a2 a3 => exact same (sysmemInc_memory k a2 a3)

variable {m m' : Machine ι} {e : Event ι} {labels : List (Event ι)}

/-- The free frames and the positions that are left to fill change together. -/
def Machine.Funded [Fintype ι] (n : ℕ) (m : Machine ι) : Prop :=
  m.mram.freeFpList.length + 1029 * Fintype.card ι = n + ∑ Q, demand m.links Q

theorem Machine.Leaves.funded [Fintype ι] (funded : m.Funded n) (leaves : m.Leaves P k m')
    (pays : Pays m.roots P cost (m.task P).krnl k) : m'.Funded n := by
  have own := pays.own
  have other : ∑ Q ∈ Finset.univ.erase P, demand m'.links Q = ∑ Q ∈ Finset.univ.erase P, demand m.links Q := by
    refine Finset.sum_congr rfl fun Q member => ?_
    rw [leaves.links, (pays.other Q (Finset.ne_of_mem_erase member)).1, m.links_task]
  rw [m.links_task, ← leaves.links, ← leaves.mram] at own
  change m.mram.freeFpList.length + _ = _ at own
  have before := Finset.add_sum_erase Finset.univ (demand m.links) (Finset.mem_univ P)
  have after := Finset.add_sum_erase Finset.univ (demand m'.links) (Finset.mem_univ P)
  rw [Machine.Funded] at funded ⊢
  omega

omit [DecidableEq ι] in
theorem Machine.Initial.unlinked (initial : m.Initial n) (small : n ≤ 8192) (r : Root ι) {path : List (Fin 512)}
    (short : path.length < 5) : m.links.frameAt r path = none := by
  have frames := (initial.owned small).frames
  obtain ⟨⟨contents, mram⟩, -⟩ := initial
  rw [Option.eq_none_iff_forall_ne_some]
  intro f reached
  have inRam := frames.used_lt f ⟨r, path, short, reached⟩
  apply frames.used_free f ⟨r, path, short, reached⟩
  rw [mram]
  exact List.mem_range.mpr inRam

omit [DecidableEq ι] in
theorem Machine.Initial.funded [Fintype ι] (initial : m.Initial n) (small : n ≤ 8192) : m.Funded n := by
  have all : ∀ Q, demand m.links Q = 1029 := by
    intro Q
    rw [demand, Links.missing, List.filter_eq_self.mpr, lowPaths_length]
    intro path member
    rw [initial.unlinked small _ (lowPaths_short path member)]
    rfl
  obtain ⟨⟨contents, mram⟩, -⟩ := initial
  have free : m.mram.freeFpList = List.range n := congrArg Memphy.freeFpList mram
  rw [Machine.Funded, free, List.length_range, Finset.sum_const_nat fun Q _ => all Q, Finset.card_univ, Nat.mul_comm]

omit [DecidableEq ι] in
theorem Machine.Initial.leftPages (initial : m.Initial n) (small : n ≤ 8192) (P : ι) : leftPages m.links P = 1024 := by
  rw [Model.leftPages, Links.missing, List.filter_eq_self.mpr, lowPages_length]
  intro path member
  rw [initial.unlinked small _ (lowPages_short path member)]
  rfl

private theorem Machine.Step.funded [Fintype ι] (owned : m.Owned n) (funded : m.Funded n)
    (step : Machine.Step driver m e m') : m'.Funded n := by
  obtain ⟨k, leaves, routine⟩ := step.kernel
  rcases routine with rfl | ⟨-, rfl⟩
  · exact leaves.funded funded (Call.kernel_pays (owned.krnl e.proc) driver e.call)
  · exact leaves.funded funded (.refl _ _ 0 _)

/-- The frames that are left are enough for the next page of `P`, when each process keeps to its budget and `P` has
not used up its own. -/
theorem Machine.Funded.room [Fintype ι] (funded : m.Funded n) {budget : ι → ℕ} (enough : ∑ Q, budget Q ≤ n)
    (within : ∀ Q, 1029 ≤ demand m.links Q + budget Q) (next : 1029 < leftPages m.links P + budget P) :
    (m.links.missing (P, (pdOf 0).pgd) lowTables).length < m.mram.freeFpList.length := by
  have split := demand_split m.links P
  have others : (Finset.univ.erase P).card * 1029 ≤ ∑ Q ∈ Finset.univ.erase P, (demand m.links Q + budget Q) :=
    Finset.card_nsmul_le_sum _ _ _ fun Q _ => within Q
  have size : (Finset.univ.erase P).card + 1 = Fintype.card ι := Finset.card_erase_add_one (Finset.mem_univ P)
  have all := Finset.add_sum_erase Finset.univ (fun Q => demand m.links Q + budget Q) (Finset.mem_univ P)
  rw [Finset.sum_add_distrib (s := Finset.univ)] at all
  rw [Machine.Funded] at funded
  omega

/-- Then a page without a frame can get one. -/
theorem Machine.affords
    (room : (m.links.missing (P, (pdOf 0).pgd) lowTables).length < m.mram.freeFpList.length) (addr : BitVec 32) :
    (m.task P).krnl.Affords m.roots P (pageOf addr) := by
  obtain ⟨pgn, low, page⟩ := pageOf_low addr
  have root : pageRoot P (BitVec.ofNat 64 pgn) = (P, (pdOf 0).pgd) := congrArg (P, ·) (pdOf_low low).1
  have wanted : (m.links.missing (P, (pdOf 0).pgd) (pdOf (BitVec.ofNat 64 pgn)).tablePaths).length ≤
      (m.links.missing (P, (pdOf 0).pgd) lowTables).length := by
    apply (List.Nodup.subperm ((List.nodup_append.mp (pdOf _).pagePaths_nodup).1.filter _) ?_).length_le
    intro path member
    obtain ⟨named, empty⟩ := List.mem_filter.mp member
    exact List.mem_filter.mpr ⟨tablePaths_low low path named, empty⟩
  rw [Krnl.Affords, m.links_task, page, root]
  exact lt_of_le_of_lt wanted room

/-- A page without a frame is among those that are left. -/
theorem Machine.Owned.leftPages_pos (owned : m.Owned n) (addr : BitVec 32)
    (absent : pagingPtePresent (pteGetEntry (m.task P).krnl (pageOf addr)) = false) : 0 < leftPages m.links P := by
  obtain ⟨pgn, low, page⟩ := pageOf_low addr
  have root : pageRoot P (BitVec.ofNat 64 pgn) = (P, (pdOf 0).pgd) := congrArg (P, ·) (pdOf_low low).1
  have noPage : m.links.frameAt (pageRoot P (pageOf addr)) (pdOf (pageOf addr)).leafPath = none := by
    have here := pageAt_eq ((owned.krnl P).frames.mono (e := 4) (by omega)) (pageOf addr)
    rw [absent, m.links_task] at here
    exact here
  rw [page, root] at noPage
  apply List.length_pos_of_mem (a := (pdOf (BitVec.ofNat 64 pgn)).leafPath)
  exact List.mem_filter.mpr ⟨pagePath_low low, by rw [noPage]; rfl⟩

theorem Machine.succeeds {rgid : BitVec 32} {offset : Addr} {after : Krnl} {success : Prop}
    (affords : ∀ addr, pagingPtePresent (pteGetEntry (m.task P).krnl (pageOf addr)) = false →
      (m.task P).krnl.Affords m.roots P (pageOf addr))
    (accessed : Accessed m.roots P (m.task P).krnl rgid offset after success) :
    success ↔ (Libmem.target (m.task P).krnl 0 rgid offset).2.isSome := by
  cases located : (Libmem.target (m.task P).krnl 0 rgid offset).2 with
  | none => simp [(accessed.refused located).2]
  | some addr =>
    rw [(accessed.looked_up addr located).succeeds]
    have found : ∀ page, pagingPtePresent (pteGetEntry (m.task P).krnl (pageOf page)) = true ∨
        (m.task P).krnl.Affords m.roots P (pageOf page) := by
      intro page
      cases absent : pagingPtePresent (pteGetEntry (m.task P).krnl (pageOf page)) with
      | true => exact .inl rfl
      | false => exact .inr (affords page absent)
    have opened := (Libmem.target_opened (m.task P).krnl rgid offset).1
    generalize (Libmem.target (m.task P).krnl 0 rgid offset).1 = k at opened
    rw [Option.isSome_some, eq_self_iff_true, iff_true]
    cases opened with
    | as_is => exact found _
    | placed slot => exact found _

/-- Frames are owned by one page or table each, and none is lost. -/
structure Machine.Accounted [Fintype ι] (n : ℕ) (m : Machine ι) : Prop where
  owned : m.Owned n
  funded : m.Funded n

theorem Machine.Accounted.run [Fintype ι] (accounted : m.Accounted n) (run : Run (Machine.Step driver) m labels m') :
    m'.Accounted n :=
  run.keeps accounted fun _ _ _ now step => ⟨now.owned.step step, step.funded now.owned now.funded⟩

/-- No process ever holds more than 1029 frames, and with as many for each process an access fails only where
`__read` and `__write` refuse the symbol or the offset. -/
theorem accesses_never_starve [Fintype ι] (initial : m.Initial n) (small : n ≤ 8192)
    (run : Run (Machine.Step driver) m labels m') :
    n ≤ m'.mram.freeFpList.length + 1029 * Fintype.card ι ∧
    (1029 * Fintype.card ι ≤ n → ∀ (P : ι) (rgid : BitVec 32) (offset : Addr),
      ((Libmem.read driver (m'.task P).krnl 0 rgid offset).2.isSome ↔
        (Libmem.target (m'.task P).krnl 0 rgid offset).2.isSome) ∧
      ∀ data, (Libmem.write driver (m'.task P).krnl 0 rgid offset data).2 = 0 ↔
        (Libmem.target (m'.task P).krnl 0 rgid offset).2.isSome) := by
  obtain ⟨owned, funded⟩ := Machine.Accounted.run ⟨initial.owned small, initial.funded small⟩ run
  refine ⟨by rw [Machine.Funded] at funded; omega, fun enough P rgid offset => ?_⟩
  have all : ∑ _ : ι, 1029 ≤ n := by
    rw [Finset.sum_const_nat fun _ _ => rfl, Finset.card_univ, Nat.mul_comm]
    exact enough
  have affords : ∀ addr, pagingPtePresent (pteGetEntry (m'.task P).krnl (pageOf addr)) = false →
      (m'.task P).krnl.Affords m'.roots P (pageOf addr) := by
    intro addr absent
    have left := owned.leftPages_pos addr absent
    exact Machine.affords (funded.room all (fun Q => Nat.le_add_left _ _) (by omega)) addr
  constructor
  · exact Machine.succeeds affords (Libmem.read_accessed (owned.krnl P) driver rgid offset)
  · intro data
    exact Machine.succeeds affords (Libmem.write_accessed (owned.krnl P) driver rgid offset data)

/-- Two processes on 2058 frames: both may write. -/
theorem accesses_never_starve_of_two :
    let m := Machine.boot 2058 (fun P : Bool => if P then 1 else 2) fun _ => []
    let m₁ := m.put true ((m.task true).setKrnl (Libmem.write .head (m.task true).krnl 0 3 5 7).1)
    (Libmem.write .head (m₁.task false).krnl 0 4 99 9).2 = 0 := by
  intro m m₁
  have run : Run (Machine.Step .head) m _ m₁ := .one (Machine.step_write m true 7 3 5)
  have starved := (accesses_never_starve (Machine.boot_initial 2058 _ _) (by decide) run).2 (by decide) false 4 99
  exact (starved.2 9).mpr (by decide)

end SimpleOS.Model
