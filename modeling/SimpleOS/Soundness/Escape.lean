import SimpleOS.Soundness.Demand
import SimpleOS.Soundness.Isolation
import SimpleOS.Soundness.RangeMapping
import SimpleOS.Soundness.Release

/-! # The way out of a process

Frame numbers of the fixed pattern of `vmap_pgd_memset` run through all 8192 numbers that an entry can hold. With
`SYSMEM_MAP_OP` a process therefore maps any frame of RAM at any of its pages, whoever owns the frame. The request
itself leaves the other processes as they are; the first WRITE through the page does not.
-/

namespace SimpleOS.Model

open Lib

variable {ι : Type} [DecidableEq ι] {others : ι → Fin 512 → Addr} {P : ι} {k k' : Krnl} {n pgn : ℕ}

/-- The free frames suffice for all tables of `P`, and the frames of the other processes are neither free nor
tables of `P`. -/
structure Furnished (others : ι → Fin 512 → Addr) (P : ι) (n : ℕ) (k : Krnl) : Prop where
  frames : Frames 4 n (k.links others P) k.mram []
  nonzero : 0 ∉ k.mram.freeFpList
  tables : ((k.links others P).missing (P, (pdOf 0).pgd) lowTables).length ≤ k.mram.freeFpList.length
  foreign : ∀ r path f, r.1 ≠ P → path.length < 5 → (k.links others P).frameAt r path = some f →
    f ∉ k.mram.freeFpList ∧ ∀ i path', path'.length < 4 → (k.links others P).frameAt (P, i) path' ≠ some f

/-- With five free frames other than frame 0 a process can get all its tables. -/
private theorem Owned.furnished (owned : Owned n (k.links others P) k.mram) (nonzero : 0 ∉ k.mram.freeFpList)
    (enough : 5 ≤ k.mram.freeFpList.length) : Furnished others P n k where
  frames := owned.frames.mono (by omega)
  nonzero := nonzero
  tables := (List.length_filter_le _ _).trans enough
  foreign r path f other short reached := by
    refine ⟨owned.frames.used_free f ⟨r, path, short, reached⟩, ?_⟩
    intro i path' above table
    obtain ⟨rfl, -⟩ := owned.frames.separated _ _ _ _ f short (by omega) reached table
    exact other rfl

private theorem lowTables_short : ∀ path ∈ lowTables, path.length < 4 := by
  simp [lowTables, Pd.tablePaths, Pd.tablePath]

private theorem lowTables_nodup : lowTables.Nodup := by
  have parts := lowPaths_nodup
  rw [lowPaths, List.nodup_append] at parts
  exact parts.1

/-- The path of a low page is completed, and the other processes keep their frames and bytes. -/
private theorem Furnished.ensure (furnished : Furnished others P n k) (low : pgn < pagingMaxPgn) :
    ∃ k' table, ensurePteMapping k (pdOf (BitVec.ofNat 64 pgn)) = (k', some table) ∧
      Furnished others P n k' ∧ Spares others P k k' ∧
      (k'.links others P).frameAt (pageRoot P (BitVec.ofNat 64 pgn)) (pdOf (BitVec.ofNat 64 pgn)).tablePath =
        some table := by
  have walk := ensurePteMapping_walk furnished.frames (pdOf (BitVec.ofNat 64 pgn)) (usable_of_nonzero furnished.nonzero)
  have root : ((P, (pdOf (BitVec.ofNat 64 pgn)).pgd) : Root ι) = (P, (pdOf 0).pgd) :=
    congrArg (P, ·) (pdOf_low low).1
  have grows := walk.ensured.grows
  have inLow : ∀ path ∈ (k.links others P).missing (P, (pdOf 0).pgd) (pdOf (BitVec.ofNat 64 pgn)).tablePaths,
      path ∈ (k.links others P).missing (P, (pdOf 0).pgd) lowTables := by
    intro path member
    obtain ⟨named, absent⟩ := List.mem_filter.mp member
    exact List.mem_filter.mpr ⟨tablePaths_low low path named, absent⟩
  have distinct : (pdOf (BitVec.ofNat 64 pgn)).tablePaths.Nodup :=
    (List.nodup_append.mp (pdOf (BitVec.ofNat 64 pgn)).pagePaths_nodup).1
  have fewer := ((distinct.filter _).subperm inLow).length_le
  have enough := fewer.trans furnished.tables
  have succeeds := walk.built.succeeds
  rw [root] at succeeds
  obtain ⟨table, reached⟩ := Option.isSome_iff_exists.mp (succeeds.mpr enough)
  rcases built : ensurePteMapping k (pdOf (BitVec.ofNat 64 pgn)) with ⟨k', result⟩
  rw [built] at walk grows reached
  subst reached
  refine ⟨k', table, rfl, ?_, ⟨?_, ?_⟩, walk.ensured.reached table rfl⟩
  · refine ⟨walk.ensured.frames, walk.ensured.nonzero furnished.nonzero, ?_, ?_⟩
    · -- each table that is added fills one of the positions and takes one of the free frames
      have fills := walk.built.fills
      have free := walk.built.free
      rw [root] at fills free
      have once := (distinct.filter fun path => ((k.links others P).frameAt (P, (pdOf 0).pgd) path).isNone).sublist
        (Links.keys_zip_sublist _ k.mram.freeFpList)
      have filled : ((k.links others P).missing (P, (pdOf 0).pgd) lowTables).length =
          _ + ((k'.links others P).missing (P, (pdOf 0).pgd) lowTables).length :=
        fills.missing_length lowTables_short lowTables_nodup once fun entry member =>
          inLow entry.1 (List.of_mem_zip (a := entry.1) (b := entry.2) member).1
      have bound := furnished.tables
      rw [free, List.length_drop]
      rw [newTables, List.length_zip] at filled
      omega
    · intro r path f other short reached
      rcases grows.new_page short reached with early | ⟨-, own, -⟩
      · obtain ⟨used, noTable⟩ := furnished.foreign r path f other short early
        refine ⟨fun member => used (grows.mem_free member), ?_⟩
        intro i path' above table
        rcases grows.new (P, i) path' f above table with old | ⟨-, free⟩
        · exact noTable i path' above old
        · exact used free
      · exact absurd own other
  · intro r path other short
    apply Option.ext
    intro f
    refine ⟨fun reached => ?_, grows.kept_page short⟩
    rcases grows.new_page short reached with early | ⟨-, own, -⟩
    · exact early
    · exact absurd own other
  · intro r path a other short reached
    obtain ⟨used, noTable⟩ := furnished.foreign r path _ other short reached
    exact grows.bytes a used noTable

/-- An entry stored in a table of `P` is read back for its page. -/
private theorem Furnished.leaf (furnished : Furnished others P n k) (fpn : ℕ) {page : Addr} {table : ℕ}
    (atTable : (k.links others P).frameAt (pageRoot P page) (pdOf page).tablePath = some table)
    (after : k' = { k with mram := k.mram.setEntry table (pdOf page).pt (onlinePte fpn) }) :
    Furnished others P n k' ∧ Spares others P k k' ∧ pteGetEntry k' page = (onlinePte fpn).setWidth 32 := by
  subst after
  let stored : Krnl := { k with mram := k.mram.setEntry table (pdOf page).pt (onlinePte fpn) }
  have linked : child (onlinePte fpn) = some (pagingPteFpn (onlinePte fpn)) :=
    child_eq_some.mpr ⟨onlinePte_present fpn, rfl⟩
  have moved := fun r path short => furnished.frames.leaf rfl atTable (pdOf page).pt linked r path short
  have above : ∀ r path, path.length < 4 →
      (stored.links others P).frameAt r path = (k.links others P).frameAt r path := by
    intro r path short
    refine (moved r path (by omega)).trans (if_neg ?_)
    rintro ⟨-, rfl⟩
    simp [Pd.tablePath] at short
  have foreign : ∀ r path, r.1 ≠ P → path.length < 5 →
      (stored.links others P).frameAt r path = (k.links others P).frameAt r path := by
    intro r path other short
    refine (moved r path short).trans (if_neg ?_)
    rintro ⟨rfl, -⟩
    exact other rfl
  have frames : Frames 4 n (stored.links others P) stored.mram [] := furnished.frames.congr rfl rfl above
  have missing : (stored.links others P).missing (P, (pdOf 0).pgd) lowTables =
      (k.links others P).missing (P, (pdOf 0).pgd) lowTables := by
    apply List.filter_congr
    intro path member
    rw [above _ path (lowTables_short path member)]
  refine ⟨⟨frames, furnished.nonzero, ?_, ?_⟩, ⟨foreign, ?_⟩, ?_⟩
  · rw [missing]
    exact furnished.tables
  · intro r path f other short reached
    rw [foreign r path other short] at reached
    obtain ⟨used, noTable⟩ := furnished.foreign r path f other short reached
    refine ⟨used, fun i path' below table => noTable i path' below ?_⟩
    rw [← above _ path' below, table]
  · intro r path a other short reached
    apply Memphy.storage_setEntry
    rintro rfl
    exact (furnished.foreign r path _ other short reached).2 (pdOf page).pgd _ (by simp [Pd.tablePath]) atTable
  · rw [pteGetEntry_eq frames]
    exact congrArg _ ((furnished.frames.wordAt_leaf rfl atTable (pdOf page).pt linked _ rfl _).trans
      (if_pos ⟨rfl, rfl, rfl⟩))

/-- One round of `vmap_pgd_memset` succeeds. -/
private theorem Furnished.setFpn (furnished : Furnished others P n k) (low : pgn < pagingMaxPgn) (fpn : ℕ) :
    Furnished others P n (pteSetFpn k (BitVec.ofNat 64 pgn) fpn).1 ∧
      Spares others P k (pteSetFpn k (BitVec.ofNat 64 pgn) fpn).1 ∧
      pteGetEntry (pteSetFpn k (BitVec.ofNat 64 pgn) fpn).1 (BitVec.ofNat 64 pgn) = (onlinePte fpn).setWidth 32 := by
  obtain ⟨k', table, built, furnished', spares, atTable⟩ := furnished.ensure low
  obtain ⟨after, spares', entry⟩ := furnished'.leaf fpn atTable rfl
  rw [pteSetFpn, getPdFromPagenum_eq]
  simp only [built]
  exact ⟨after, spares.trans spares', entry⟩

/-- The page of every round is a low one. -/
private theorem roundPage_low (addr : Addr) (pgit : ℕ) :
    ∃ pgn < pagingMaxPgn, pagingPgn (addr + pageOffset pgit) = BitVec.ofNat 64 pgn := by
  refine ⟨(pagingPgn (addr + pageOffset pgit)).toNat, ?_, ?_⟩
  · rw [pagingPgn_toNat _ (by omega), pagingMaxPgn_eq]
    omega
  · rw [BitVec.ofNat_toNat, BitVec.setWidth_eq]

/-- However many pages are mapped, the other processes keep their frames and bytes. -/
private theorem Furnished.vmapPgdMemset (furnished : Furnished others P n k) (addr : Addr) (pgnum : ℕ) :
    Furnished others P n (vmapPgdMemsetLoop addr k pgnum) ∧ Spares others P k (vmapPgdMemsetLoop addr k pgnum) := by
  induction pgnum with
  | zero => exact ⟨furnished, (Paged.refl others P k).spares⟩
  | succ pgit ih =>
    obtain ⟨furnished', spares⟩ := ih
    obtain ⟨pgn, low, page⟩ := roundPage_low addr pgit
    obtain ⟨after, spares', -⟩ := furnished'.setFpn low ((0xdeadbeef + pgit) &&& 0xFFFFF)
    rw [vmapPgdMemsetLoop, page]
    exact ⟨after, spares.trans spares'⟩

/-- The round of `vmap_pgd_memset` in which the pattern comes to a frame: it starts with 7919. -/
def patternRound (frame : ℕ) : ℕ := (frame + 273) % 8192

/-- The address from which that round comes to a page. -/
def patternStart (pgn frame : ℕ) : ℕ := (pgn + 8192 - patternRound frame) % 1024 * 4096

private theorem pattern_frame {frame : ℕ} (fits : frame < 8192) :
    ((0xdeadbeef + patternRound frame) &&& 0xFFFFF) % 2 ^ 13 = frame := by
  have mask : (0xFFFFF : ℕ) = 2 ^ 20 - 1 := rfl
  rw [mask, Nat.and_two_pow_sub_one_eq_mod, patternRound]
  omega

private theorem pattern_page {pgn frame : ℕ} (low : pgn < pagingMaxPgn) :
    pagingPgn (BitVec.ofNat 64 (patternStart pgn frame) + pageOffset (patternRound frame)) = BitVec.ofNat 64 pgn := by
  have round : patternRound frame < 8192 := Nat.mod_lt _ (by omega)
  rw [pagingMaxPgn_eq] at low
  apply BitVec.eq_of_toNat_eq
  rw [rangePage_toNat _ (by omega), BitVec.toNat_ofNat, BitVec.toNat_ofNat, patternStart]
  omega

/-- A process maps any frame at any of its pages. The other processes keep their frames and bytes until it writes. -/
private theorem Furnished.maps_frame (furnished : Furnished others P n k) {frame : ℕ} (low : pgn < pagingMaxPgn)
    (fits : frame < 8192) :
    let k' := Machine.sysmemMap k (BitVec.ofNat 64 (patternStart pgn frame)) (BitVec.ofNat 64 (patternRound frame + 1))
    Furnished others P n k' ∧ Spares others P k k' ∧
      pagingPtePresent (pteGetEntry k' (BitVec.ofNat 64 pgn)) = true ∧
      pagingPteFpn (pteGetEntry k' (BitVec.ofNat 64 pgn)) = frame := by
  intro k'
  have round : patternRound frame < 8192 := Nat.mod_lt _ (by omega)
  have start : patternStart pgn frame < 1024 * 4096 := by
    rw [patternStart]
    omega
  have address : ((BitVec.ofNat 64 (patternStart pgn frame)).setWidth 32).setWidth 64 =
      BitVec.ofNat 64 (patternStart pgn frame) := by
    apply BitVec.eq_of_toNat_eq
    simp only [BitVec.toNat_setWidth, BitVec.toNat_ofNat]
    omega
  have count : ((BitVec.ofNat 64 (patternRound frame + 1)).setWidth 32).toInt.toNat = patternRound frame + 1 := by
    rw [BitVec.toInt_eq_toNat_of_lt] <;> simp only [BitVec.toNat_setWidth, BitVec.toNat_ofNat] <;> omega
  have mapped : k' = (pteSetFpn (vmapPgdMemsetLoop (BitVec.ofNat 64 (patternStart pgn frame)) k (patternRound frame))
      (BitVec.ofNat 64 pgn) ((0xdeadbeef + patternRound frame) &&& 0xFFFFF)).1 := by
    simp only [k', Machine.sysmemMap]
    rw [Model.vmapPgdMemset, address, count, vmapPgdMemsetLoop, pattern_page low]
  obtain ⟨furnished', spares⟩ := furnished.vmapPgdMemset (BitVec.ofNat 64 (patternStart pgn frame)) (patternRound frame)
  obtain ⟨after, spares', entry⟩ := furnished'.setFpn low ((0xdeadbeef + patternRound frame) &&& 0xFFFFF)
  rw [mapped]
  refine ⟨after, spares.trans spares', ?_, ?_⟩
  · rw [entry, pagingPtePresent_setWidth]
    exact onlinePte_present _
  · rw [entry, pagingPteFpn_setWidth, onlinePte, pagingPteFpn_setVal_mod]
    exact pattern_frame fits

namespace Libmem

variable {rgid : BitVec 32} {offset addr : Addr}

/-- The address of an access depends on the regions only. -/
private theorem target_regions (same : k'.mm.regions = k.mm.regions) (rgid : BitVec 32) (offset : Addr) :
    (target k' 0 rgid offset).2 = (target k 0 rgid offset).2 := by
  have table : k'.mm.symrgtbl = k.mm.symrgtbl := congrArg Regions.symrgtbl same
  cases index : symIndex rgid with
  | none => simp only [target, index]
  | some slot =>
    by_cases live : (k.mm.symrgtbl slot).Live
    · simp only [target, index, table, if_pos live, locate]
    · rw [target_free offset index live, target_free offset index (table ▸ live), locate_placed, locate_placed, same]

/-- A write through a page that has a frame. -/
private theorem write_present (driver : Driver) (v : BitVec 8) (opened : (target k 0 rgid offset).2 = some addr)
    (present : pagingPtePresent (pteGetEntry k (pageOf (addr.setWidth 32))) = true)
    (inRam : pagingPteFpn (pteGetEntry k (pageOf (addr.setWidth 32))) * pagingPagesz + offsetOf (addr.setWidth 32) <
      k.mram.maxsz) :
    write driver k 0 rgid offset v = ((target k 0 rgid offset).1.storeByte
      (pagingPteFpn (pteGetEntry k (pageOf (addr.setWidth 32)))) (offsetOf (addr.setWidth 32)) v, 0) := by
  have same := (target_opened k rgid offset).1
  have entry : pteGetEntry (target k 0 rgid offset).1 (pageOf (addr.setWidth 32)) =
      pteGetEntry k (pageOf (addr.setWidth 32)) := by
    rw [pteGetEntry, pteGetEntry, same.pgd, same.mram]
  have size : (target k 0 rgid offset).1.mram.maxsz = k.mram.maxsz := congrArg Memphy.maxsz same.mram
  rw [← entry] at present inRam ⊢
  rw [← size] at inRam
  rw [write]
  generalize target k 0 rgid offset = result at opened present inRam
  obtain ⟨k', _⟩ := result
  subst opened
  have found : pgGetpage driver k' (pagingPgn (addr.setWidth 32)) =
      (k', some (pagingPteFpn (pteGetEntry k' (pageOf (addr.setWidth 32))))) := by
    rw [pageOf] at present ⊢
    simp only [pgGetpage, if_neg (pagingPgn_inRange _), present, if_true]
  have stored : k'.mram.write (pagingPteFpn (pteGetEntry k' (pageOf (addr.setWidth 32))) * pagingPagesz +
      (pagingOffst (addr.setWidth 32)).toNat) v = _ := if_pos inRam
  simp only [pgSetval, found, stored]
  rfl

end Libmem

/-- After a request to map pages, a WRITE of the process stores its byte in any frame of RAM. -/
theorem Furnished.escapes (furnished : Furnished others P n k) (driver : Driver) {rgid : BitVec 32}
    {offset addr : Addr} {frame : ℕ} (v : BitVec 8) (opened : (Libmem.target k 0 rgid offset).2 = some addr) (inRam : frame < n) :
    let page := (pageOf (addr.setWidth 32)).toNat
    let k' := Machine.sysmemMap k (BitVec.ofNat 64 (patternStart page frame)) (BitVec.ofNat 64 (patternRound frame + 1))
    Spares others P k k' ∧ ∃ after, Libmem.write driver k' 0 rgid offset v = (after, 0) ∧
      after.mram.storage (frame * pagingPagesz + offsetOf (addr.setWidth 32)) = v := by
  intro page k'
  have low : page < pagingMaxPgn := by
    simp only [page]
    rw [pageOf_toNat, pagingMaxPgn_eq]
    omega
  have small := furnished.frames.small
  obtain ⟨furnished', spares, present, fpn⟩ := furnished.maps_frame low (by omega : frame < 8192)
  have named : BitVec.ofNat 64 page = pageOf (addr.setWidth 32) := by
    rw [BitVec.ofNat_toNat, BitVec.setWidth_eq]
  rw [named] at present fpn
  have same : k.SameRegions k' := vmapPgdMemset_same _ _ _
  have opened' : (Libmem.target k' 0 rgid offset).2 = some addr := by
    rw [Libmem.target_regions same.regions, opened]
  have inside : frame * pagingPagesz + offsetOf (addr.setWidth 32) < k'.mram.maxsz := by
    have size : k'.mram.maxsz = n * pagingPagesz := furnished'.frames.size
    have bound := offsetOf_lt (addr.setWidth 32)
    rw [size]
    simp only [pagingPagesz] at *
    omega
  have stores := Libmem.write_present driver v opened' present (by rw [fpn]; exact inside)
  rw [fpn] at stores
  exact ⟨spares, _, stores, Bytes.writeByte_same v⟩

private theorem leaves_setKrnl (m : Machine ι) (P : ι) (k : Krnl) : m.Leaves P k (m.put P ((m.task P).setKrnl k)) :=
  m.leaves_put (t := (m.task P).setKrnl k) P

omit [DecidableEq ι] in
private theorem leaves_krnl {m m' : Machine ι} (leaves : m.Leaves P k m') : (m'.task P).krnl = k :=
  congrArg₂ Krnl.mk leaves.self leaves.mram

/-- Process `false` has written a byte to frame 0. Process `true` maps that frame at its first page and writes to the
page: 274 pages from page 752 on get the frames 7919, 7920 and so on, and page 1 the frame `8192 % 8192`. -/
theorem run_isolation_fails :
    let env : Env := ⟨.head, fun _ => 0⟩
    let m := Machine.boot 256 (fun P : Bool => if P then 1 else 2) fun P =>
      if P then [⟨.syscall, 17, 1, 3080192, 274⟩, ⟨.write, 9, 3, 0, 0⟩] else [⟨.write, 7, 3, 0, 0⟩]
    ∃ now, Run (Machine.Exec env) m [(false, [false, true]), (true, [false, true])] now ∧ now.Uses false 0 ∧
      now.mram.storage 0 = 7 ∧ ∃ after, now.run env [false, true] true = .ok (after, 0) ∧ after.mram.storage 0 = 9 := by
  intro env m
  let m₁ := m.advance false
  let result := Libmem.write .head (m₁.task false).krnl 0 ((3 : Addr).setWidth 32) 0 ((7 : Addr).setWidth 8)
  let m₂ := m₁.put false ((m₁.task false).setKrnl result.1)
  let m₃ := m₂.advance true
  let k' := Machine.sysmemMap (m₃.task true).krnl 3080192 274
  let now := m₃.put true ((m₃.task true).setKrnl k')
  have first : Machine.Exec env m (false, [false, true]) m₂ := Machine.exec_write env [false, true] rfl rfl
  have second : Machine.Exec env m₂ (true, [false, true]) now := ⟨0, rfl⟩
  have initial : m.Initial 256 := Machine.boot_initial 256 _ _
  have step : Machine.Step .head m₁ _ m₂ := m₁.step_write false ((7 : Addr).setWidth 8) ((3 : Addr).setWidth 32) 0
  have owned : m₃.Owned 256 := (((initial.owned (by decide)).advance false).step step).advance true
  have opened : (Libmem.target (m₁.task false).krnl 0 ((3 : Addr).setWidth 32) 0).2 = some 4096 := by decide
  have written : result = _ := Libmem.write_fresh (n := 256) ⟨fun _ => rfl, rfl⟩ (by decide) .head _ opened
  have free : (m₃.task true).krnl.mram.freeFpList = List.range' 5 251 := by
    simp only [m₃, m₂, written]
    rfl
  have page : m₃.links.frameAt (false, 0) [1, 0, 0, 0] = some 0 := by
    simp only [m₃, m₂, written]
    decide +kernel
  have byte : (m₃.task true).krnl.mram.storage 0 = 7 := by
    simp only [m₃, m₂, written]
    decide +kernel
  have furnished : Furnished m₃.roots true 256 (m₃.task true).krnl := by
    apply (owned.krnl true).furnished
    · simp [free]
    · simp [free]
  have target : (Libmem.target (m₃.task true).krnl 0 ((3 : Addr).setWidth 32) 0).2 = some 4096 := by
    have same : (m₃.task true).krnl.mm.regions = (m₁.task false).krnl.mm.regions := rfl
    rw [Libmem.target_regions same, opened]
  have escapes : Spares m₃.roots true (m₃.task true).krnl k' ∧ ∃ after,
      Libmem.write .head k' 0 ((3 : Addr).setWidth 32) 0 ((9 : Addr).setWidth 8) = (after, 0) ∧
      after.mram.storage 0 = 9 := by
    obtain ⟨spares, after, stored, replaced⟩ :=
      furnished.escapes .head ((9 : Addr).setWidth 8) target (by decide : 0 < 256)
    have start : BitVec.ofNat 64 (patternStart (pageOf ((4096 : Addr).setWidth 32)).toNat 0) = 3080192 := by decide
    have count : BitVec.ofNat 64 (patternRound 0 + 1) = 274 := by decide
    have first_byte : 0 * pagingPagesz + offsetOf ((4096 : Addr).setWidth 32) = 0 := by decide
    rw [start, count] at spares stored
    rw [first_byte] at replaced
    exact ⟨spares, after, stored, replaced⟩
  clear_value k'
  obtain ⟨spares, after, stored, replaced⟩ := escapes
  have leaves : m₃.Leaves true k' now := leaves_setKrnl m₃ true k'
  have used : now.Uses false 0 := by
    refine ⟨0, [1, 0, 0, 0], by decide, ?_⟩
    rw [leaves.links, spares.foreign _ _ (by decide) (by decide), m₃.links_task, page]
  have kept : now.mram.storage 0 = 7 := by
    rw [leaves.mram, spares.bytes (false, 0) [1, 0, 0, 0] 0 (by decide) (by decide) (by rw [m₃.links_task, page]; rfl),
      byte]
  have krnl : ((now.advance true).task true).krnl = k' := by
    rw [now.advance_krnl, leaves_krnl leaves]
  have next : (now.procs true).text[(now.procs true).pc]? = some ⟨.write, 9, 3, 0, 0⟩ := rfl
  have ran := now.run_write env [false, true] next
  dsimp only [env] at ran
  rw [krnl, stored] at ran
  exact ⟨now, (Run.one first).next second, used, kept, _, ran, replaced⟩

end SimpleOS.Model
