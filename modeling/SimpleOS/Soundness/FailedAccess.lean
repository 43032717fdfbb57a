import SimpleOS.Soundness.Integrity

/-! # Accesses that fail

A READ or WRITE that finds no frame leaves tables behind and nothing that a later access could notice. A symbol
without a region is different: its region of 100 bytes is recorded before the offset is checked and the page is
looked up, and it stays when either of them fails.
-/

namespace SimpleOS.Model

open Lib

variable {ι : Type} [DecidableEq ι] {others : ι → Fin 512 → Addr} {P : ι} {k k' k'' : Krnl} {n : ℕ} {driver : Driver}

/-- `k'` has the pages and entries of `k` and its list of mapped pages; it may have more tables. -/
structure Quiet (others : ι → Fin 512 → Addr) (P : ι) (k k' : Krnl) : Prop where
  paged : Paged others P k k'
  words : ∀ r path j, path.length = 3 →
    wordAt (rootsOf others P k') k'.mram r path j = wordAt (rootsOf others P k) k.mram r path j
  fifoPgn : k'.mm.fifoPgn = k.mm.fifoPgn

theorem Quiet.refl (others : ι → Fin 512 → Addr) (P : ι) (k : Krnl) : Quiet others P k k :=
  ⟨.refl others P k, fun _ _ _ _ => rfl, rfl⟩

/-- The path of the page lacks fewer tables than there are free frames. -/
def Krnl.Affords (others : ι → Fin 512 → Addr) (P : ι) (k : Krnl) (pgn : Addr) : Prop :=
  ((k.links others P).missing (pageRoot P pgn) (pdOf pgn).tablePaths).length < k.mram.freeFpList.length

/-- How a look-up of a page ends: with a frame if the page has one or can get one, quietly otherwise. -/
structure Ends (others : ι → Fin 512 → Addr) (P : ι) (k : Krnl) (pgn : Addr) (after : Krnl) (success : Prop) : Prop where
  succeeds : success ↔ pagingPtePresent (pteGetEntry k pgn) = true ∨ k.Affords others P pgn
  quiet : ¬success → Quiet others P k after

private theorem pgGetpage_ends (owned : Owned n (k.links others P) k.mram) (driver : Driver) {pgn : BitVec 32}
    (inRange : ¬(pgn.toInt < 0 ∨ (pagingMaxPgn : Int) ≤ pgn.toInt)) :
    Ends others P k (pgn.signExtend 64) (pgGetpage driver k pgn).1 (pgGetpage driver k pgn).2.isSome := by
  have paged := (pgGetpage_fetched owned driver pgn).paged
  cases present : pagingPtePresent (pteGetEntry k (pgn.signExtend 64)) with
  | true =>
    have found : pgGetpage driver k pgn = (k, some (pagingPteFpn (pteGetEntry k (pgn.signExtend 64)))) := by
      simp only [pgGetpage, if_neg inRange, present, if_true]
    rw [found]
    exact ⟨by simp [present], by simp⟩
  | false =>
    cases pop : k.mram.freeFpList with
    | nil =>
      have nothing : pgGetpage driver k pgn = (k, none) := by
        simp [pgGetpage, present, Memphy.getFreefp, pop]
      rw [nothing]
      exact ⟨by simp [Krnl.Affords, pop, present], fun _ => .refl others P k⟩
    | cons g rest =>
      let popped : Krnl := { k with mram := { k.mram with freeFpList := rest } }
      obtain ⟨frames, -, nonzero⟩ := owned.popped pop
      have walk : Walk others P n [g] popped (pageRoot P (pgn.signExtend 64)) _ _
          (ensurePteMapping popped (pdOf (pgn.signExtend 64))) :=
        ensurePteMapping_walk (frames.mono (by omega)) _ (usable_of_nonzero nonzero)
      have tables : popped.OnlyTables (ensurePteMapping popped (pdOf (pgn.signExtend 64))).1 :=
        ensurePteMapping_tables popped _
      rcases built : ensurePteMapping popped (pdOf (pgn.signExtend 64)) with ⟨grown, table⟩
      rw [built] at walk tables
      have affords : k.Affords others P (pgn.signExtend 64) ↔ table.isSome := by
        rw [Krnl.Affords, pop, List.length_cons, Nat.lt_succ_iff]
        exact walk.built.succeeds.symm
      rw [pgGetpage_fault_eq driver inRange present pop built] at paged ⊢
      cases table with
      | none =>
        refine ⟨by simp [present, affords], fun _ => ⟨paged, walk.ensured.grows.words, ?_⟩⟩
        exact tables.fifoPgn
      | some table => exact ⟨by simp [present, affords], by simp⟩

/-- The physical access does not fail: the frame lies in RAM. -/
theorem pgGetval_ends (owned : Owned n (k.links others P) k.mram) (driver : Driver) (addr : BitVec 32) :
    Ends others P k (pageOf addr) (pgGetval driver k addr).1 (pgGetval driver k addr).2.isSome := by
  have ends := pgGetpage_ends owned driver (pagingPgn_inRange addr)
  have fetched := pgGetpage_fetched owned driver (pagingPgn addr)
  rw [pgGetval]
  generalize pgGetpage driver k (pagingPgn addr) = result at ends fetched
  rcases result with ⟨k', _ | f⟩
  · exact ends
  · have inRam := fetched.owned.inRam (by rw [pagePath_length]; omega) (fetched.reached f rfl) (offsetOf_lt addr)
    have byte : (k'.mram.read (f * pagingPagesz + (pagingOffst addr).toNat)).isSome :=
      congrArg Option.isSome (if_pos inRam)
    exact ⟨⟨fun _ => ends.succeeds.mp rfl, fun _ => byte⟩, fun failed => absurd byte failed⟩

private theorem pgSetval_ends (owned : Owned n (k.links others P) k.mram) (driver : Driver) (addr : BitVec 32)
    (v : BitVec 8) :
    Ends others P k (pageOf addr) (pgSetval driver k addr v).1 ((pgSetval driver k addr v).2 = 0) := by
  have ends := pgGetpage_ends owned driver (pagingPgn_inRange addr)
  have fetched := pgGetpage_fetched owned driver (pagingPgn addr)
  rw [pgSetval]
  generalize pgGetpage driver k (pagingPgn addr) = result at ends fetched
  rcases result with ⟨k', _ | f⟩
  · refine ⟨⟨fun status => ?_, fun found => ?_⟩, fun _ => ends.quiet (by simp)⟩
    · cases status
    · have absurd := ends.succeeds.mpr found
      cases absurd
  · have inRam := fetched.owned.inRam (by rw [pagePath_length]; omega) (fetched.reached f rfl) (offsetOf_lt addr)
    have stored : k'.mram.write (f * pagingPagesz + (pagingOffst addr).toNat) v =
        some (k'.storeByte f (offsetOf addr) v).mram := if_pos inRam
    simp only [stored]
    exact ⟨⟨fun _ => ends.succeeds.mp rfl, fun _ => trivial⟩, fun failed => absurd trivial failed⟩

namespace Libmem

/-- A symbol without a region gets one of 100 bytes before anything is checked. -/
theorem target_free {rgid : BitVec 32} {slot : Fin 30} (offset : Addr) (index : symIndex rgid = some slot)
    (free : ¬(k.mm.symrgtbl slot).Live) :
    target k 0 rgid offset = (k.placed slot 100, locate (k.placed slot 100) slot offset) := by
  rcases alloc_cases k rgid 100 with ⟨-, used⟩ | ⟨slot', index', -, allocated⟩
  · exact absurd (used slot index) free
  · obtain rfl : slot = slot' := Option.some.inj (index.symm.trans index')
    simp only [target, index, if_neg free, allocated]

/-- The new region covers an offset below 100, unless its end wraps. -/
theorem locate_placed (k : Krnl) (slot : Fin 30) (offset : Addr) :
    locate (k.placed slot 100) slot offset =
      if offset.toNat < 100 ∧ k.mm.regions.top.toNat + 100 < 2 ^ 64 then some (k.mm.regions.top + offset) else none := by
  have region : (k.placed slot 100).mm.symrgtbl slot = ⟨k.mm.regions.top, k.mm.regions.top + 100⟩ :=
    Function.update_self ..
  have size : k.mm.regions.top + 100 - k.mm.regions.top = 100 := by
    rw [BitVec.add_comm, BitVec.add_sub_cancel]
  have hundred : (100 : Addr).toNat = 100 := rfl
  have wraps : k.mm.regions.top + 100 ≤ k.mm.regions.top ↔ ¬k.mm.regions.top.toNat + 100 < 2 ^ 64 := by
    rw [BitVec.le_def, BitVec.toNat_add, hundred]
    omega
  have beyond : (100 : Addr) ≤ offset ↔ ¬offset.toNat < 100 := by
    rw [BitVec.le_def, hundred, Nat.not_lt]
  simp only [locate, region, size, wraps, beyond]
  by_cases fits : k.mm.regions.top.toNat + 100 < 2 ^ 64
  · by_cases inside : offset.toNat < 100
    · rw [if_neg (not_not_intro fits), if_neg (not_not_intro inside), if_pos ⟨inside, fits⟩]
    · rw [if_neg (not_not_intro fits), if_pos inside, if_neg fun covered => inside covered.1]
  · rw [if_pos fits, if_neg fun covered => fits covered.2]

end Libmem

/-- How READ and WRITE end: at the check of their symbol and offset, or with the look-up of the page. -/
structure Accessed (others : ι → Fin 512 → Addr) (P : ι) (k : Krnl) (rgid : BitVec 32) (offset : Addr) (after : Krnl)
    (success : Prop) : Prop where
  refused : (Libmem.target k 0 rgid offset).2 = none → after = (Libmem.target k 0 rgid offset).1 ∧ ¬success
  looked_up : ∀ addr, (Libmem.target k 0 rgid offset).2 = some addr →
    Ends others P (Libmem.target k 0 rgid offset).1 (pageOf (addr.setWidth 32)) after success
  regions : after.mm.regions = (Libmem.target k 0 rgid offset).1.mm.regions

theorem Libmem.read_accessed (owned : Owned n (k.links others P) k.mram) (driver : Driver) (rgid : BitVec 32)
    (offset : Addr) : Accessed others P k rgid offset (Libmem.read driver k 0 rgid offset).1
      (Libmem.read driver k 0 rgid offset).2.isSome := by
  have same := (Libmem.read_same driver k rgid offset).regions
  have opened := (Libmem.target_paged owned rgid offset).1
  rw [Libmem.read] at same ⊢
  refine ⟨?_, ?_, same⟩
  · intro refused
    generalize Libmem.target k 0 rgid offset = result at refused
    obtain ⟨k', rfl⟩ : ∃ k', result = (k', none) := ⟨result.1, Prod.ext rfl refused⟩
    exact ⟨rfl, by simp⟩
  · intro addr located
    generalize Libmem.target k 0 rgid offset = result at located opened
    obtain ⟨k', rfl⟩ : ∃ k', result = (k', some addr) := ⟨result.1, Prod.ext rfl located⟩
    exact pgGetval_ends opened driver _

theorem Libmem.write_accessed (owned : Owned n (k.links others P) k.mram) (driver : Driver) (rgid : BitVec 32)
    (offset : Addr) (v : BitVec 8) : Accessed others P k rgid offset (Libmem.write driver k 0 rgid offset v).1
      ((Libmem.write driver k 0 rgid offset v).2 = 0) := by
  have same := (Libmem.write_same driver k rgid offset v).regions
  have opened := (Libmem.target_paged owned rgid offset).1
  rw [Libmem.write] at same ⊢
  refine ⟨?_, ?_, same⟩
  · intro refused
    generalize Libmem.target k 0 rgid offset = result at refused
    obtain ⟨k', rfl⟩ : ∃ k', result = (k', none) := ⟨result.1, Prod.ext rfl refused⟩
    exact ⟨rfl, fun status => by cases status⟩
  · intro addr located
    generalize Libmem.target k 0 rgid offset = result at located opened
    obtain ⟨k', rfl⟩ : ∃ k', result = (k', some addr) := ⟨result.1, Prod.ext rfl located⟩
    exact pgSetval_ends opened driver _ v

/-- The symbol names no slot or has a region; or the region it gets covers the offset, and the page there has a
frame or can get one. -/
def Krnl.Covers (others : ι → Fin 512 → Addr) (P : ι) (k : Krnl) (rgid : BitVec 32) (offset : Addr) : Prop :=
  ∀ slot, symIndex rgid = some slot → (k.mm.symrgtbl slot).Live ∨
    (offset.toNat < 100 ∧ k.mm.regions.top.toNat + 100 < 2 ^ 64) ∧
      (pagingPtePresent (pteGetEntry k (pageOf ((k.mm.regions.top + offset).setWidth 32))) = true ∨
        k.Affords others P (pageOf ((k.mm.regions.top + offset).setWidth 32)))

namespace Accessed

variable {rgid : BitVec 32} {offset : Addr} {after : Krnl} {success : Prop}

/-- An access to a symbol that gets a region succeeds exactly when offset and page are covered. -/
private theorem succeeds (accessed : Accessed others P k rgid offset after success) {slot : Fin 30}
    (index : symIndex rgid = some slot) (free : ¬(k.mm.symrgtbl slot).Live) :
    success ↔ k.Covers others P rgid offset := by
  obtain ⟨refused, looked_up, -⟩ := accessed
  rw [Libmem.target_free offset index free, Libmem.locate_placed] at refused looked_up
  have covers : k.Covers others P rgid offset ↔ (offset.toNat < 100 ∧ k.mm.regions.top.toNat + 100 < 2 ^ 64) ∧
      (pagingPtePresent (pteGetEntry k (pageOf ((k.mm.regions.top + offset).setWidth 32))) = true ∨
        k.Affords others P (pageOf ((k.mm.regions.top + offset).setWidth 32))) := by
    constructor
    · exact fun covers => (covers slot index).resolve_left free
    · intro covered slot' index'
      exact .inr covered
  rw [covers]
  split_ifs at refused looked_up with inside
  · refine (looked_up _ rfl).succeeds.trans ⟨fun found => ⟨inside, found⟩, fun found => found.2⟩
  · exact iff_of_false (refused rfl).2 fun found => inside found.1

/-- A covered access that fails is quiet. -/
private theorem quiet (accessed : Accessed others P k rgid offset after success)
    (covers : k.Covers others P rgid offset)
    (failed : ¬success) : Quiet others P k after ∧ after.mm.regions = k.mm.regions := by
  have live : ∀ slot, symIndex rgid = some slot → (k.mm.symrgtbl slot).Live := by
    intro slot index
    by_contra free
    exact failed ((accessed.succeeds index free).mpr covers)
  have opened : (Libmem.target k 0 rgid offset).1 = k := by
    have opened := (Libmem.target_opened k rgid offset).1
    generalize (Libmem.target k 0 rgid offset).1 = k' at opened
    cases opened with
    | as_is => rfl
    | placed slot index free => exact absurd (live slot index) free
  refine ⟨?_, by rw [accessed.regions, opened]⟩
  cases located : (Libmem.target k 0 rgid offset).2 with
  | none =>
    rw [(accessed.refused located).1, opened]
    exact .refl others P k
  | some addr =>
    have ends := accessed.looked_up addr located
    rw [opened] at ends
    exact ends.quiet failed

/-- An access that is not covered fails and leaves a new region. -/
private theorem disturbs (accessed : Accessed others P k rgid offset after success)
    (open_ended : ¬k.Covers others P rgid offset) : ¬success ∧ after.mm.symrgtbl ≠ k.mm.symrgtbl := by
  have uncovered := open_ended
  rw [Krnl.Covers] at uncovered
  push Not at uncovered
  obtain ⟨slot, index, free, -⟩ := uncovered
  refine ⟨fun succeeded => open_ended ((accessed.succeeds index free).mp succeeded), ?_⟩
  intro same
  have regions := accessed.regions
  rw [Libmem.target_free offset index free, Krnl.placed_regions] at regions
  have table : after.mm.symrgtbl = (k.mm.regions.act (.place slot 100)).symrgtbl := congrArg Regions.symrgtbl regions
  apply free
  rw [← same, table]
  exact k.mm.regions.place_live slot 100

end Accessed

/-- Regions, entries, lists of mapped pages and the bytes of present pages are as before. -/
structure Machine.Unchanged (m m' : Machine ι) : Prop where
  symrgtbl : ∀ Q, (m'.procs Q).mm.symrgtbl = (m.procs Q).mm.symrgtbl
  sbrk : ∀ Q, (m'.procs Q).mm.mmap.sbrk = (m.procs Q).mm.mmap.sbrk
  vmEnd : ∀ Q, (m'.procs Q).mm.mmap.vmEnd = (m.procs Q).mm.mmap.vmEnd
  fifoPgn : ∀ Q, (m'.procs Q).mm.fifoPgn = (m.procs Q).mm.fifoPgn
  entries : ∀ Q pgn, pteGetEntry (m'.task Q).krnl pgn = pteGetEntry (m.task Q).krnl pgn
  bytes : ∀ Q pgn off, off < pagingPagesz → pagingPtePresent (pteGetEntry (m.task Q).krnl pgn) = true →
    m'.mram.storage (pagingPteFpn (pteGetEntry (m.task Q).krnl pgn) * pagingPagesz + off) =
      m.mram.storage (pagingPteFpn (pteGetEntry (m.task Q).krnl pgn) * pagingPagesz + off)

variable {m now : Machine ι} {env : Env}

/-- A quiet change of one process that keeps its regions. -/
private theorem Machine.Owned.unchanged (owned : m.Owned n) {t : Task}
    (owned' : Model.Owned n (t.krnl.links m.roots P) t.krnl.mram) (quiet : Quiet m.roots P (m.task P).krnl t.krnl)
    (regions : t.krnl.mm.regions = (m.procs P).mm.regions) : m.Unchanged (m.put P t) := by
  have leaves := m.leaves_put (t := t) P
  have after : (m.put P t).Owned n := by
    rw [Machine.Owned, leaves.links]
    exact owned'
  have mm : ∀ {α : Type} (field : MmStruct → α), field t.krnl.mm = field (m.procs P).mm →
      ∀ Q, field ((m.put P t).procs Q).mm = field (m.procs Q).mm := by
    intro α field same Q
    by_cases here : Q = P
    · subst here
      rw [leaves.self, same]
    · rw [leaves.other Q here]
  refine ⟨mm MmStruct.symrgtbl (congrArg Regions.symrgtbl regions),
    mm (fun mm => mm.mmap.sbrk) (congrArg Regions.sbrk regions), mm (fun mm => mm.mmap.vmEnd) (congrArg Regions.vmEnd regions), mm MmStruct.fifoPgn quiet.fifoPgn, ?_, ?_⟩
  · intro Q pgn
    have word := quiet.words (pageRoot Q pgn) (pdOf pgn).tablePath (pdOf pgn).pt rfl
    rw [← leaves.roots, m.roots_task] at word
    rw [after.entry, owned.entry]
    exact congrArg (BitVec.setWidth 32) word
  · intro Q pgn off bound present
    have page := pageAt_eq ((owned.krnl Q).frames.mono (by omega)) pgn
    rw [present, if_pos rfl, m.links_task, ← m.links_task P] at page
    refine quiet.paged.bytes (pageRoot Q pgn) (pagePath pgn) _ (by rw [pagePath_length]; omega)
      (.inr (pagePath_length pgn)) ?_
    rw [frame_of_byte bound, page]

/-- An access that fails changes nothing exactly when its symbol and offset are covered. -/
private theorem Machine.Owned.failed_iff (owned : m.Owned n) {t : Task} {rgid : BitVec 32} {offset : Addr}
    {success : Prop} (owned' : Model.Owned n (t.krnl.links m.roots P) t.krnl.mram)
    (accessed : Accessed m.roots P (m.task P).krnl rgid offset t.krnl success) :
    (¬success → m.Unchanged (m.put P t)) ↔ (m.task P).krnl.Covers m.roots P rgid offset := by
  constructor
  · intro unchanged
    by_contra uncovered
    obtain ⟨failed, changed⟩ := accessed.disturbs uncovered
    have same := (unchanged failed).symrgtbl P
    rw [(m.leaves_put (t := t) P).self] at same
    exact changed same
  · intro covers failed
    obtain ⟨quiet, regions⟩ := accessed.quiet covers failed
    exact owned.unchanged owned' quiet regions

/-- In every run of intact requests, a READ or WRITE that fails changes nothing if and only if its symbol names no
slot or has a region, or the region it gets covers the offset and the page there has a frame or can get one. -/
theorem failed_access_iff {labels : List (ι × List ι)} (initial : m.Initial n) (frames : n ≤ 8192)
    (run : Run (guarded Machine.Intact (Machine.Exec env)) m labels now) (P : ι) (rgid : BitVec 32) (offset : Addr)
    (data : BitVec 8) :
    (((libread env.driver (now.task P) rgid offset).2 = none →
        now.Unchanged (now.put P (libread env.driver (now.task P) rgid offset).1)) ↔
      (now.task P).krnl.Covers now.roots P rgid offset) ∧
    (((libwrite env.driver (now.task P) data rgid offset).2 ≠ 0 →
        now.Unchanged (now.put P (libwrite env.driver (now.task P) data rgid offset).1)) ↔
      (now.task P).krnl.Covers now.roots P rgid offset) := by
  have owned : now.Owned n := (initial.owned frames).intact_run run
  constructor
  · have failed : (libread env.driver (now.task P) rgid offset).2 = none ↔
        ¬(Libmem.read env.driver (now.task P).krnl 0 rgid offset).2.isSome := by
      rw [libread, Option.map_eq_none_iff, Option.not_isSome_iff_eq_none]
    rw [failed]
    exact owned.failed_iff (Call.kernel_owned (owned.krnl P) (.read rgid offset))
      (Libmem.read_accessed (owned.krnl P) env.driver rgid offset)
  · exact owned.failed_iff (Call.kernel_owned (owned.krnl P) (.write data rgid offset))
      (Libmem.write_accessed (owned.krnl P) env.driver rgid offset data)

/-- A WRITE far behind a region of 100 bytes. -/
theorem failed_write_outside : let now := Machine.afterAlloc 100
    let result := libwrite .head (now.task ()) 1 1 1000
    result.2 ≠ 0 ∧ now.Unchanged (now.put () result.1) := by
  intro now result
  let env : Env := ⟨.head, fun _ => 0⟩
  have intact : Machine.Intact (Machine.boot 16 (fun _ : Unit => 1) fun _ => [.allocReg 100 1, .freeReg 1])
      ((), [()]) := by
    rintro ins ⟨⟩ ⟨⟩
  have run : Run (guarded Machine.Intact (Machine.Exec env)) _ [((), [()])] now :=
    .one ⟨intact, Machine.afterAlloc_exec env 100⟩
  have failed : result.2 ≠ 0 := by decide +kernel
  have covers : (now.task ()).krnl.Covers now.roots () 1 1000 := by
    rintro slot ⟨⟩
    exact .inl (by decide +kernel)
  exact ⟨failed, (failed_access_iff (Machine.boot_initial 16 _ _) (by decide) run () 1 1000 1).2.mpr covers failed⟩

/-- The same WRITE to a symbol without a region fails, and leaves a region at the break. -/
theorem failed_write_allocates : let m := Machine.boot 16 (fun _ : Unit => 1) fun _ => []
    let result := libwrite .head (m.task ()) 1 2 1000
    result.2 = -1 ∧ result.1.krnl.mm.symrgtbl 2 = ⟨4096, 4196⟩ ∧ result.1.krnl.mm.mmap.sbrk = 4196 ∧
      ¬(result.2 ≠ 0 → m.Unchanged (m.put () result.1)) := by
  intro m result
  have failed : result.2 = -1 := by decide +kernel
  have region : result.1.krnl.mm.symrgtbl 2 = ⟨4096, 4196⟩ := by decide +kernel
  refine ⟨failed, region, by decide +kernel, ?_⟩
  intro unchanged
  have same := (unchanged (by rw [failed]; decide)).symrgtbl ()
  rw [(m.leaves_put ()).self] at same
  rw [same] at region
  cases region

end SimpleOS.Model
