import SimpleOS.Model.Libmem
import SimpleOS.Proofs.Descent

/-! # Demand paging over the shared RAM

`Owned` is the ownership invariant: every frame of RAM is free or stands at one position of one
process's tree. Frame 0 needs care, since `init_pte` refuses it: it is first in the free list or
not in it at all, so `pg_getpage` takes it for a page and never for a table.

`Paged` is what an access by `P` may do to the forest and to the bytes under it; `pgGetpage_paged`
says that `pg_getpage` does no more, whether it succeeds or runs out of frames on the way.
-/

namespace SimpleOS.Model

open Lib

variable {ι : Type} [DecidableEq ι] {others : ι → Fin 512 → Addr} {P : ι} {k k' k'' : Krnl} {n : ℕ}

/-- Every frame of RAM is free or linked, once. -/
structure Owned (n : ℕ) (links : Links (Root ι) 512) (mram : Memphy) : Prop where
  frames : Frames 5 n links mram []
  zero : 0 ∉ mram.freeFpList.tail
  covered : Covered n links mram []

/-- What an access by `P` may do: pages and tables appear in the tree of `P`; no page loses its
frame or a byte, and neither does any frame of another process. -/
structure Paged (others : ι → Fin 512 → Addr) (P : ι) (k k' : Krnl) : Prop where
  kept : ∀ r path f, path.length < 5 → (k.links others P).frameAt r path = some f →
    (k'.links others P).frameAt r path = some f
  foreign : ∀ r path, r.1 ≠ P → path.length < 5 →
    (k'.links others P).frameAt r path = (k.links others P).frameAt r path
  bytes : ∀ r path a, path.length < 5 → r.1 ≠ P ∨ path.length = 4 →
    (k.links others P).frameAt r path = some (a / pagingPagesz) →
    k'.mram.storage a = k.mram.storage a

theorem Paged.refl (others : ι → Fin 512 → Addr) (P : ι) (k : Krnl) : Paged others P k k where
  kept _ _ _ _ reached := reached
  foreign _ _ _ _ := rfl
  bytes _ _ _ _ _ _ := rfl

theorem Paged.trans (first : Paged others P k k') (second : Paged others P k' k'') :
    Paged others P k k'' where
  kept r path f short reached := second.kept r path f short (first.kept r path f short reached)
  foreign r path other short := (second.foreign r path other short).trans (first.foreign r path other short)
  bytes r path a short outside reached :=
    (second.bytes r path a short outside (first.kept r path _ short reached)).trans
      (first.bytes r path a short outside reached)

/-- The root directory and the stored bytes determine the forest and what lies under it. -/
theorem Paged.of_storage (pgd : k'.mm.pgd = k.mm.pgd) (storage : k'.mram.storage = k.mram.storage) :
    Paged others P k k' := by
  have links : k'.links others P = k.links others P := by
    funext slot
    cases slot with
    | root r => simp only [tableLinks, rootsOf, pgd]
    | cell f j => simp only [tableLinks, Memphy.entry, storage]
  refine ⟨?_, ?_, ?_⟩
  · intro r path f short reached
    rw [links, reached]
  · intro r path other short
    rw [links]
  · intro r path a short outside reached
    rw [storage]

/-- A level of the walk reads the child link: no link leads out of RAM. -/
private theorem walkEntry_eq {mram : Memphy} {entry : Addr}
    (inside : ∀ f, child entry = some f → f * pagingPagesz < mram.maxsz) : walkEntry mram entry = child entry := by
  rw [walkEntry, child]
  split_ifs with present outside
  · have bound := inside _ (child_eq_some.mpr ⟨present, rfl⟩)
    omega
  · rfl
  · rfl

private theorem walkEntry_frameAt (inRam : ∀ f, (k.links others P).Uses 4 f → f * pagingPagesz < k.mram.maxsz)
    {r : Root ι} {path : List (Fin 512)} (short : path.length < 3) (j : Fin 512) :
    (((k.links others P).frameAt r path).bind fun table => walkEntry k.mram (k.mram.entry table j)) =
      (k.links others P).frameAt r (j :: path) := by
  cases reached : (k.links others P).frameAt r path with
  | none => rw [Links.frameAt, reached, Option.bind_none, Option.bind_none]
  | some table =>
    have below : (k.links others P).frameAt r (j :: path) = child (k.mram.entry table j) := by
      rw [frameAt_cons, wordAt, reached]
    rw [below]
    refine walkEntry_eq fun f linked => inRam f ⟨r, j :: path, ?_, below.trans linked⟩
    simp only [List.length_cons]
    omega

/-- The PT table that `pte_get_entry` reaches for five indices. -/
def Krnl.ptTable (k : Krnl) (pd : Pd) : Option ℕ := do
  let p4d ← walkEntry k.mram (k.mm.pgd pd.pgd)
  let pud ← walkEntry k.mram (k.mram.entry p4d pd.p4d)
  let pmd ← walkEntry k.mram (k.mram.entry pud pd.pud)
  walkEntry k.mram (k.mram.entry pmd pd.pmd)

/-- `pte_get_entry` reads the slot of its page in that table, narrowed; an incomplete path reads as zero. -/
theorem pteGetEntry_eq_ptTable (k : Krnl) (pgn : Addr) : pteGetEntry k pgn =
    (k.ptTable (pdOf pgn)).elim 0 fun pt => (k.mram.entry pt (pdOf pgn).pt).setWidth 32 := by
  cases reached : k.ptTable (pdOf pgn) with
  | none =>
    rw [Krnl.ptTable] at reached
    simp only [pteGetEntry, getPdFromPagenum_eq, reached, Option.elim_none]
  | some pt =>
    rw [Krnl.ptTable] at reached
    simp only [pteGetEntry, getPdFromPagenum_eq, reached, Option.elim_some]

/-- The walk of `pte_get_entry` is the descent in the forest: no link leads out of RAM. -/
theorem ptTable_eq (inRam : ∀ f, (k.links others P).Uses 4 f → f * pagingPagesz < k.mram.maxsz) (pd : Pd) :
    k.ptTable pd = (k.links others P).frameAt (P, pd.pgd) pd.tablePath := by
  have root : walkEntry k.mram (k.mm.pgd pd.pgd) = (k.links others P).frameAt (P, pd.pgd) [] := by
    rw [frameAt_root]
    exact walkEntry_eq fun f linked => inRam f ⟨_, [], by simp, (frameAt_root pd.pgd).trans linked⟩
  simp only [Krnl.ptTable, Option.bind_eq_bind, root]
  rw [← Option.bind_assoc, ← Option.bind_assoc, walkEntry_frameAt inRam (by simp), walkEntry_frameAt inRam (by simp),
    walkEntry_frameAt inRam (by simp), Pd.tablePath]

theorem pteGetEntry_eq_wordAt
    (inRam : ∀ f, (k.links others P).Uses 4 f → f * pagingPagesz < k.mram.maxsz) (pgn : Addr) :
    pteGetEntry k pgn = (wordAt (rootsOf others P k) k.mram (P, (pdOf pgn).pgd) (pdOf pgn).tablePath
      (pdOf pgn).pt).setWidth 32 := by
  rw [pteGetEntry_eq_ptTable, ptTable_eq inRam, wordAt]
  cases (k.links others P).frameAt (P, (pdOf pgn).pgd) (pdOf pgn).tablePath <;> rfl

theorem pteGetEntry_eq {flight : List ℕ} (frames : Frames 4 n (k.links others P) k.mram flight)
    (pgn : Addr) : pteGetEntry k pgn =
      (wordAt (rootsOf others P k) k.mram (P, (pdOf pgn).pgd) (pdOf pgn).tablePath
        (pdOf pgn).pt).setWidth 32 := by
  apply pteGetEntry_eq_wordAt
  intro f used
  rw [frames.size]
  exact Nat.mul_lt_mul_of_pos_right (frames.used_lt f used) (by decide)

/-- The position of a page in the forest. -/
abbrev pageRoot (P : ι) (pgn : Addr) : Root ι := (P, (pdOf pgn).pgd)

abbrev pagePath (pgn : Addr) : List (Fin 512) := (pdOf pgn).leafPath

theorem pagePath_length (pgn : Addr) : (pagePath pgn).length = 4 := rfl

theorem pageAt_eq {flight : List ℕ} (frames : Frames 4 n (k.links others P) k.mram flight) (pgn : Addr) :
    (k.links others P).frameAt (pageRoot P pgn) (pagePath pgn) =
      if pagingPtePresent (pteGetEntry k pgn) then some (pagingPteFpn (pteGetEntry k pgn)) else none := by
  rw [pteGetEntry_eq frames, pagingPtePresent_setWidth, pagingPteFpn_setWidth]
  exact frameAt_cons ..

/-- Completing a path is an access in the sense of `Paged`. -/
theorem Grows.paged {flight : List ℕ} (grows : Grows others P k k')
    (frames : Frames 5 n (k.links others P) k.mram flight) : Paged others P k k' where
  kept r path f short reached := grows.kept_page short reached
  foreign r path other short := by
    cases reached : (k.links others P).frameAt r path with
    | some f => exact grows.kept_page short reached
    | none =>
      rw [Option.eq_none_iff_forall_not_mem]
      intro f later
      rcases grows.new_page short later with early | ⟨-, root, -⟩
      · rw [reached] at early
        contradiction
      · exact other root
  bytes r path a short outside reached := by
    refine grows.bytes a ?_ ?_
    · exact fun member => frames.used_free _ ⟨r, path, short, reached⟩ (List.mem_append_right _ member)
    · intro i table shortTable reached'
      obtain ⟨rfl, rfl⟩ := frames.separated r path (P, i) table _ short (by omega) reached reached'
      rcases outside with other | deep
      · exact other rfl
      · omega

/-- Storing the leaf entry of a page that had none is an access by its process. -/
private theorem Frames.mapPage {flight : List ℕ} {g table : ℕ} {r : Root ι} {path : List (Fin 512)} {j : Fin 512}
    {entry : Addr} (frames : Frames 5 n (k.links others P) k.mram (g :: flight))
    (covered : Covered n (k.links others P) k.mram (g :: flight)) (root : r.1 = P)
    (deep : path.length = 3) (atTable : (k.links others P).frameAt r path = some table)
    (absent : (k.links others P).frameAt r (j :: path) = none) (linked : child entry = some g)
    (after : k' = { k with mram := k.mram.setEntry table j entry }) :
    Frames 5 n (k'.links others P) k'.mram flight ∧ Covered n (k'.links others P) k'.mram flight ∧
      Paged others P k k' ∧ (k'.links others P).frameAt r (j :: path) = some g := by
  subst after
  have moved := (frames.mono (e := 4) (by omega)).leaf deep atTable j linked
  have short : (j :: path).length < 5 := by simp only [List.length_cons]; omega
  have plants : Links.Plants 5 (k.links others P)
      (Krnl.links others P { k with mram := k.mram.setEntry table j entry }) r (j :: path) g := by
    refine ⟨short, absent, ?_, ?_⟩
    · rw [moved r (j :: path) short, if_pos ⟨rfl, rfl⟩]
    · intro r' path' short' other
      rw [moved r' path' short', if_neg other]
  refine ⟨frames.plant plants rfl rfl, ?_, ⟨fun _ _ _ => plants.kept, ?_, ?_⟩, plants.here⟩
  · intro f bound
    rcases covered f bound with free | ⟨r', path', short', reached⟩
    · rcases List.mem_cons.mp free with rfl | rest
      · exact .inr ⟨r, j :: path, short, plants.here⟩
      · exact .inl rest
    · exact .inr ⟨r', path', short', plants.kept short' reached⟩
  · intro r' path' other short'
    apply plants.elsewhere r' path' short'
    rintro ⟨rfl, -⟩
    exact other root
  · intro r' path' a short' outside reached
    apply Memphy.storage_setEntry
    rintro rfl
    obtain ⟨rfl, rfl⟩ := frames.separated r' path' r path _ short' (by omega) reached atTable
    rcases outside with other | page
    · exact other root
    · omega

/-- What `pg_getpage` leaves: ownership, a `Paged` change, and the frame of the page if it succeeds. -/
structure Fetched (others : ι → Fin 512 → Addr) (P : ι) (n : ℕ) (k : Krnl) (result : Krnl × Option ℕ)
    (pgn : Addr) : Prop where
  owned : Owned n (result.1.links others P) result.1.mram
  paged : Paged others P k result.1
  reached : ∀ f, result.2 = some f →
    (result.1.links others P).frameAt (pageRoot P pgn) (pagePath pgn) = some f

private theorem Fetched.failed {pgn : Addr} (owned : Owned n (k.links others P) k.mram) :
    Fetched others P n k (k, none) pgn :=
  ⟨owned, .refl others P k, by simp⟩

/-- The first free frame is taken for a page; frame 0 is not among the others. -/
theorem Owned.popped (owned : Owned n (k.links others P) k.mram) {g : ℕ} {rest : List ℕ}
    (pop : k.mram.freeFpList = g :: rest) :
    Frames 5 n (k.links others P) { k.mram with freeFpList := rest } [g] ∧
      Covered n (k.links others P) { k.mram with freeFpList := rest } [g] ∧ 0 ∉ rest := by
  obtain ⟨frames, zero, covered⟩ := owned
  refine ⟨frames.reflight rfl ?_, ?_, ?_⟩
  · rw [pop]
    exact List.Perm.refl _
  · intro f bound
    have before := covered f bound
    rw [pop] at before
    exact before
  · rw [pop] at zero
    exact zero

/-- The fault path of `pg_getpage`: the first free frame is taken, the path is completed, and the frame goes into the
entry of the page or back to the free list. -/
theorem pgGetpage_fault_eq (driver : Driver) {pgn : BitVec 32}
    (inRange : ¬(pgn.toInt < 0 ∨ (pagingMaxPgn : Int) ≤ pgn.toInt))
    (absent : pagingPtePresent (pteGetEntry k (pgn.signExtend 64)) = false) {g : ℕ} {rest : List ℕ}
    (pop : k.mram.freeFpList = g :: rest) {grown : Krnl} {table : Option ℕ}
    (built : ensurePteMapping { k with mram := { k.mram with freeFpList := rest } } (pdOf (pgn.signExtend 64)) =
      (grown, table)) :
    pgGetpage driver k pgn = table.elim ({ grown with mram := grown.mram.putFreefp driver g }, none) fun table =>
      ({ mm := { grown.mm with fifoPgn := enlistPgnNode grown.mm.fifoPgn (pgn.signExtend 64) }
         mram := grown.mram.setEntry table (pdOf (pgn.signExtend 64)).pt (onlinePte g) }, some g) := by
  have getFreefp : k.mram.getFreefp = some (g, { k.mram with freeFpList := rest }) := by
    simp [Memphy.getFreefp, pop]
  cases table with
  | none => simp [pgGetpage, inRange, absent, getFreefp, pteSetFpn, getPdFromPagenum_eq, built]
  | some table => simp [pgGetpage, inRange, absent, getFreefp, pteSetFpn, getPdFromPagenum_eq, built]

/-- The fault path of `pg_getpage` on a page without a frame: the frame for the page is taken first,
then those of the missing tables. When they run out, the free list is empty and gets the one frame
back. -/
private theorem pgGetpage_fault (owned : Owned n (k.links others P) k.mram) (driver : Driver) {pgn : BitVec 32}
    (inRange : ¬(pgn.toInt < 0 ∨ (pagingMaxPgn : Int) ≤ pgn.toInt))
    (absent : pagingPtePresent (pteGetEntry k (pgn.signExtend 64)) = false) {g : ℕ} {rest : List ℕ}
    (pop : k.mram.freeFpList = g :: rest) :
    Fetched others P n k (pgGetpage driver k pgn) (pgn.signExtend 64) := by
  let popped : Krnl := { k with mram := { k.mram with freeFpList := rest } }
  have noPage : (popped.links others P).frameAt (pageRoot P (pgn.signExtend 64))
      (pagePath (pgn.signExtend 64)) = none := by
    have here := pageAt_eq (owned.frames.mono (e := 4) (by omega)) (pgn.signExtend 64)
    rw [absent] at here
    exact here
  obtain ⟨frames, covered, nonzero⟩ := owned.popped pop
  have fits : g < 8192 := by
    have bound := frames.free_lt g (by simp)
    have small := frames.small
    omega
  have ensured : Ensured others P n [g] popped (ensurePteMapping popped (pdOf (pgn.signExtend 64)))
      (pageRoot P (pgn.signExtend 64)) (pdOf (pgn.signExtend 64)).tablePath :=
    ensurePteMapping_ensured (frames.mono (by omega)) nonzero (pdOf (pgn.signExtend 64))
  have first : Paged others P k popped := .of_storage rfl rfl
  rcases built : ensurePteMapping popped (pdOf (pgn.signExtend 64)) with ⟨grown, table⟩
  rw [built] at ensured
  rw [pgGetpage_fault_eq driver inRange absent pop built]
  have frames' := ensured.grows.frames frames ensured.frames
  have covered' := ensured.grows.covered covered
  have second := ensured.grows.paged frames
  cases table with
  | none =>
    have empty : grown.mram.freeFpList = [] := ensured.exhausted rfl
    have perm : (driver.put grown.mram.freeFpList g).Perm ([g] ++ grown.mram.freeFpList) :=
      driver.put_perm _ _
    have single : driver.put grown.mram.freeFpList g = [g] := by
      rw [empty] at perm ⊢
      exact List.perm_singleton.mp perm
    rw [Option.elim_none]
    refine ⟨⟨frames'.reflight rfl perm, ?_, ?_⟩, (first.trans second).trans ?_, by simp⟩
    · simp [Memphy.putFreefp, single]
    · intro f bound
      exact (covered' f bound).imp_left perm.mem_iff.mpr
    · exact .of_storage rfl rfl
  | some table =>
    have reached := ensured.reached table rfl
    have linked : child (onlinePte g) = some g :=
      child_eq_some.mpr ⟨onlinePte_present g, onlinePte_fpn fits⟩
    have absent' : (grown.links others P).frameAt (pageRoot P (pgn.signExtend 64))
        (pagePath (pgn.signExtend 64)) = none := by
      rw [ensured.grows.page rfl, noPage]
    obtain ⟨frames'', covered'', third, here⟩ :=
      frames'.mapPage covered' rfl rfl reached absent' linked rfl
    rw [Option.elim_some]
    have notZero : 0 ∉ grown.mram.freeFpList := ensured.nonzero nonzero
    refine ⟨⟨frames'', fun member => notZero (List.mem_of_mem_tail member), covered''⟩,
      ((first.trans second).trans third).trans ?_, ?_⟩
    · exact .of_storage rfl rfl
    · rintro f ⟨⟩
      exact here

/-- `pg_getpage` on a page that has a frame changes nothing. -/
private theorem pgGetpage_present {flight : List ℕ} (frames : Frames 4 n (k.links others P) k.mram flight)
    (driver : Driver) {pgn : BitVec 32} {f : ℕ}
    (inRange : ¬(pgn.toInt < 0 ∨ (pagingMaxPgn : Int) ≤ pgn.toInt))
    (reached : (k.links others P).frameAt (pageRoot P (pgn.signExtend 64))
      (pagePath (pgn.signExtend 64)) = some f) : pgGetpage driver k pgn = (k, some f) := by
  rw [pageAt_eq frames] at reached
  split_ifs at reached with present
  rw [Option.some.injEq] at reached
  simp only [pgGetpage, if_neg inRange, present, if_true, reached]

theorem pgGetpage_fetched (owned : Owned n (k.links others P) k.mram) (driver : Driver)
    (pgn : BitVec 32) : Fetched others P n k (pgGetpage driver k pgn) (pgn.signExtend 64) := by
  by_cases inRange : pgn.toInt < 0 ∨ (pagingMaxPgn : Int) ≤ pgn.toInt
  · simp only [pgGetpage, if_pos inRange]
    exact .failed owned
  · cases present : pagingPtePresent (pteGetEntry k (pgn.signExtend 64)) with
    | true =>
      have reached := pageAt_eq (owned.frames.mono (e := 4) (by omega)) (pgn.signExtend 64)
      rw [present, if_pos rfl] at reached
      rw [pgGetpage_present (owned.frames.mono (by omega)) driver inRange reached]
      exact ⟨owned, .refl others P k, by rintro f ⟨⟩; exact reached⟩
    | false =>
      cases pop : k.mram.freeFpList with
      | nil =>
        simp only [pgGetpage, if_neg inRange, present, Memphy.getFreefp, pop]
        exact .failed owned
      | cons g rest => exact pgGetpage_fault owned driver inRange present pop

omit [DecidableEq ι] in
/-- Ownership depends on the positions of frames only. -/
theorem Owned.congr {links links' : Links (Root ι) 512} {mram mram' : Memphy}
    (owned : Owned n links mram) (maxsz : mram'.maxsz = mram.maxsz)
    (free : mram'.freeFpList = mram.freeFpList)
    (same : ∀ r path, path.length < 5 → links'.frameAt r path = links.frameAt r path) :
    Owned n links' mram' := by
  obtain ⟨frames, zero, covered⟩ := owned
  refine ⟨frames.congr maxsz free same, ?_, ?_⟩
  · rw [free]
    exact zero
  · intro f bound
    rw [free, uses_congr same f]
    exact covered f bound

/-- The byte at an offset of a page, when the page has a frame. -/
def byteAt (links : Links (Root ι) 512) (mram : Memphy) (P : ι) (pgn : Addr) (off : ℕ) :
    Option (BitVec 8) :=
  (links.frameAt (pageRoot P pgn) (pagePath pgn)).map fun f => mram.storage (f * pagingPagesz + off)

theorem frame_of_byte {f off : ℕ} (bound : off < pagingPagesz) :
    (f * pagingPagesz + off) / pagingPagesz = f := by
  simp only [pagingPagesz] at *
  omega

/-- An access keeps the bytes of all pages of all processes. -/
theorem Paged.byteAt (paged : Paged others P k k') {Q : ι} {pgn : Addr} {off : ℕ} {b : BitVec 8}
    (bound : off < pagingPagesz) (held : byteAt (k.links others P) k.mram Q pgn off = some b) :
    byteAt (k'.links others P) k'.mram Q pgn off = some b := by
  obtain ⟨f, reached, rfl⟩ := Option.map_eq_some_iff.mp held
  have deep := pagePath_length pgn
  rw [Model.byteAt, paged.kept _ _ f (by omega) reached, Option.map_some]
  rw [paged.bytes _ (pagePath pgn) (f * pagingPagesz + off) (by omega) (.inr deep)
    (by rw [frame_of_byte bound, reached])]

/-- Store a byte at an offset of a frame. -/
def Krnl.storeByte (k : Krnl) (f off : ℕ) (v : BitVec 8) : Krnl :=
  { k with mram := { k.mram with storage := k.mram.storage.writeByte (f * pagingPagesz + off) v } }

/-- A byte stored in a page moves no frame. -/
theorem frameAt_storeByte {flight : List ℕ} (frames : Frames 5 n (k.links others P) k.mram flight)
    {r : Root ι} {path : List (Fin 512)} {f off : ℕ} (deep : path.length = 4)
    (page : (k.links others P).frameAt r path = some f) (bound : off < pagingPagesz) (v : BitVec 8)
    (r' : Root ι) (path' : List (Fin 512)) (short : path'.length < 5) :
    ((k.storeByte f off v).links others P).frameAt r' path' = (k.links others P).frameAt r' path' := by
  have reads : ∀ slot, (k.links others P).Reads 4 slot →
      (k.storeByte f off v).links others P slot = k.links others P slot := by
    rintro (root | ⟨table, j⟩) reads
    · rfl
    · obtain ⟨s, above, shortAbove, reached⟩ := reads
      refine congrArg child (Memphy.entry_congr fun a inside => Bytes.writeByte_ne v ?_)
      rintro rfl
      have same : f = table := by rw [← inside, frame_of_byte bound]
      obtain ⟨-, rfl⟩ := frames.separated r path s above f (by omega) (by omega) page (same ▸ reached)
      omega
  exact Links.frameAt_congr reads r' path' (by omega)

theorem Owned.storeByte (owned : Owned n (k.links others P) k.mram) {r : Root ι}
    {path : List (Fin 512)} {f off : ℕ} (deep : path.length = 4)
    (page : (k.links others P).frameAt r path = some f) (bound : off < pagingPagesz) (v : BitVec 8) :
    Owned n ((k.storeByte f off v).links others P) (k.storeByte f off v).mram :=
  owned.congr rfl rfl (frameAt_storeByte owned.frames deep page bound v)

/-- The page that `pg_getval` and `pg_setval` look up. -/
def pageOf (addr : BitVec 32) : Addr := (pagingPgn addr).signExtend 64

/-- The offset that `pg_getval` and `pg_setval` use. -/
def offsetOf (addr : BitVec 32) : ℕ := (pagingOffst addr).toNat

theorem offsetOf_lt (addr : BitVec 32) : offsetOf addr < pagingPagesz := by
  rw [offsetOf, pagingOffst_toNat addr (by omega)]
  exact Nat.mod_lt _ (by decide)

theorem pagingPgn_inRange (addr : BitVec 32) :
    ¬((pagingPgn addr).toInt < 0 ∨ (pagingMaxPgn : Int) ≤ (pagingPgn addr).toInt) := by
  have value := pagingPgn_toNat addr (by omega)
  have positive : (pagingPgn addr).toInt = (pagingPgn addr).toNat := by
    rw [BitVec.toInt_eq_toNat_cond, if_pos (by omega)]
  rw [positive, pagingMaxPgn_eq]
  omega

theorem pageOf_toNat (addr : BitVec 32) : (pageOf addr).toNat = addr.toNat / 4096 % 1024 := by
  have value := pagingPgn_toNat addr (by omega)
  have positive : (pagingPgn addr).msb = false := by
    rw [BitVec.msb_eq_false_iff_two_mul_lt]
    omega
  rw [pageOf, BitVec.signExtend_eq_setWidth_of_msb_false positive, BitVec.toNat_setWidth, value]
  omega

/-- The digits of a looked-up page determine it. -/
theorem pdOf_pageOf_injective {a b : BitVec 32} (same : pdOf (pageOf a) = pdOf (pageOf b)) :
    pagingPgn a = pagingPgn b := by
  have valueA := pageOf_toNat a
  have valueB := pageOf_toNat b
  simp only [pdOf, Pd.mk.injEq, Fin.mk.injEq] at same
  apply BitVec.eq_of_toNat_eq
  rw [pagingPgn_toNat a (by omega), pagingPgn_toNat b (by omega)]
  omega

/-- Page and offset of an address are its value modulo the 22-bit bus. -/
theorem page_offset_iff (a b : Addr) :
    pagingPgn (a.setWidth 32) = pagingPgn (b.setWidth 32) ∧
        pagingOffst (a.setWidth 32) = pagingOffst (b.setWidth 32) ↔
      a.toNat % 2 ^ 22 = b.toNat % 2 ^ 22 := by
  rw [← BitVec.toNat_inj, ← BitVec.toNat_inj, pagingPgn_toNat _ (by omega),
    pagingPgn_toNat _ (by omega), pagingOffst_toNat _ (by omega), pagingOffst_toNat _ (by omega),
    BitVec.toNat_setWidth, BitVec.toNat_setWidth]
  omega

theorem Owned.inRam (owned : Owned n (k.links others P) k.mram) {r : Root ι} {path : List (Fin 512)}
    {f off : ℕ} (short : path.length < 5) (page : (k.links others P).frameAt r path = some f)
    (bound : off < pagingPagesz) : f * pagingPagesz + off < k.mram.maxsz := by
  have inside := owned.frames.used_lt f ⟨r, path, short, page⟩
  rw [owned.frames.size]
  simp only [pagingPagesz] at *
  omega

/-- `pg_getval` on a page that has a frame reads the byte and changes nothing. -/
theorem pgGetval_present (owned : Owned n (k.links others P) k.mram) (driver : Driver)
    {addr : BitVec 32} {b : BitVec 8}
    (held : byteAt (k.links others P) k.mram P (pageOf addr) (offsetOf addr) = some b) :
    pgGetval driver k addr = (k, some b) := by
  obtain ⟨f, reached, rfl⟩ := Option.map_eq_some_iff.mp held
  have inRam := owned.inRam (by rw [pagePath_length]; omega) reached (offsetOf_lt addr)
  rw [pgGetval, pgGetpage_present (owned.frames.mono (by omega)) driver (pagingPgn_inRange addr) reached]
  exact congrArg (Prod.mk k) (if_pos inRam)

theorem pgGetval_fetched (owned : Owned n (k.links others P) k.mram) (driver : Driver)
    (addr : BitVec 32) :
    Owned n ((pgGetval driver k addr).1.links others P) (pgGetval driver k addr).1.mram ∧
      Paged others P k (pgGetval driver k addr).1 ∧
      ∀ b, (pgGetval driver k addr).2 = some b →
        byteAt ((pgGetval driver k addr).1.links others P) (pgGetval driver k addr).1.mram P (pageOf addr)
          (offsetOf addr) = some b := by
  have fetched := pgGetpage_fetched owned driver (pagingPgn addr)
  rw [pgGetval]
  generalize pgGetpage driver k (pagingPgn addr) = result at fetched
  rcases result with ⟨k', _ | f⟩
  · exact ⟨fetched.owned, fetched.paged, by simp⟩
  · refine ⟨fetched.owned, fetched.paged, fun b read => ?_⟩
    have reached := fetched.reached f rfl
    simp only [Memphy.read] at read
    split_ifs at read
    rw [byteAt, pageOf, reached, Option.map_some]
    exact read

/-- `pg_setval` fails as `pg_getpage` does, or stores the byte in the frame it got. -/
theorem pgSetval_cases (owned : Owned n (k.links others P) k.mram) (driver : Driver)
    (addr : BitVec 32) (v : BitVec 8) :
    (∃ k', pgSetval driver k addr v = (k', -1) ∧ Owned n (k'.links others P) k'.mram ∧
      Paged others P k k') ∨
    ∃ k' f, pgSetval driver k addr v = (k'.storeByte f (offsetOf addr) v, 0) ∧
      Fetched others P n k (k', some f) (pageOf addr) := by
  have fetched := pgGetpage_fetched owned driver (pagingPgn addr)
  rw [pgSetval]
  generalize pgGetpage driver k (pagingPgn addr) = result at fetched
  rcases result with ⟨k', _ | f⟩
  · exact .inl ⟨k', rfl, fetched.owned, fetched.paged⟩
  · have inRam := fetched.owned.inRam (by rw [pagePath_length]; omega) (fetched.reached f rfl)
      (offsetOf_lt addr)
    refine .inr ⟨k', f, ?_, fetched⟩
    have written : k'.mram.write (f * pagingPagesz + (pagingOffst addr).toNat) v =
        some (k'.storeByte f (offsetOf addr) v).mram := if_pos inRam
    simp only [written]
    rfl

end SimpleOS.Model
