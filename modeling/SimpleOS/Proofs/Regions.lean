import SimpleOS.Model.Machine
import SimpleOS.Proofs.Entries

/-! # Regions and the break

The region code sees a process through its symbol table, `sbrk` and `vm_end`. Every kernel routine
acts on these three by one of four actions, and every statement about regions is a statement about
the actions.
-/

namespace SimpleOS.Model

/-- What the region code reads and writes of an `mm`. -/
structure Regions where
  symrgtbl : Fin 30 → VmRg
  sbrk : Addr
  vmEnd : Addr

/-- The regions of an `mm`. -/
def MmStruct.regions (mm : MmStruct) : Regions := ⟨mm.symrgtbl, mm.mmap.sbrk, mm.mmap.vmEnd⟩

/-- The 64-bit rounding of `inc_vma_limit`. -/
def roundUp (size : Addr) : Addr :=
  (size + BitVec.ofNat 64 pagingPagesz - 1) &&& ~~~(BitVec.ofNat 64 pagingPagesz - 1)

/-- The actions on regions. -/
inductive RegionAction
  | keep
  | place (slot : Fin 30) (size : Addr)
  | release (slot : Fin 30)
  | extend (size : Addr)

namespace Regions

/-- Where the next region starts. -/
def top (R : Regions) : Addr := if R.sbrk = 0 then BitVec.ofNat 64 pagingPagesz else R.sbrk

/-- The limit of the area after a region of `size` bytes has been placed. -/
def limit (R : Regions) (size : Addr) : Addr :=
  if R.vmEnd < R.sbrk + size then R.vmEnd + roundUp size else R.vmEnd

/-- The effect of an action. -/
def act (R : Regions) : RegionAction → Regions
  | .keep => R
  | .place slot size =>
    ⟨Function.update R.symrgtbl slot ⟨R.top, R.top + size⟩, R.top + size, R.limit size⟩
  | .release slot => { R with symrgtbl := Function.update R.symrgtbl slot ⟨0, 0⟩ }
  | .extend size => { R with vmEnd := R.vmEnd + roundUp size }

end Regions

variable {k : Krnl}

/-- The frame list of `vm_map_ram` is empty, so growing the area maps nothing. -/
@[simp] theorem vmMapRam_krnl (k : Krnl) (mapstart : Addr) (incpgnum : BitVec 32) :
    (vmMapRam k mapstart incpgnum).1 = k := rfl

theorem incVmaLimit_eq (k : Krnl) (vmaid : Int) (incSz : Addr) :
    incVmaLimit k vmaid incSz =
      if vmaid ≤ 0 then
        ({ k with mm := { k.mm with mmap := { k.mm.mmap with vmEnd := k.mm.mmap.vmEnd + roundUp incSz } } }, 0)
      else (k, -1) := by
  rw [incVmaLimit, getVmaByNum]
  split_ifs with first
  · simp only [vmMapRam_krnl]
    rfl
  · rfl

/-- A placed region as the kernel records it. -/
def Krnl.placed (k : Krnl) (slot : Fin 30) (size : Addr) : Krnl :=
  { k with mm :=
    { k.mm with
      symrgtbl := Function.update k.mm.symrgtbl slot ⟨k.mm.regions.top, k.mm.regions.top + size⟩
      mmap := { k.mm.mmap with
        sbrk := k.mm.regions.top + size
        vmEnd := k.mm.regions.limit size } } }

theorem Krnl.placed_regions (k : Krnl) (slot : Fin 30) (size : Addr) :
    (k.placed slot size).mm.regions = k.mm.regions.act (.place slot size) := rfl

/-- A released region as the kernel records it. -/
def Krnl.released (k : Krnl) (slot : Fin 30) : Krnl :=
  { k with mm := { k.mm with symrgtbl := Function.update k.mm.symrgtbl slot ⟨0, 0⟩ } }

namespace Libmem

/-- `__alloc` refuses an index outside the table and a slot in use; otherwise it places a region. -/
theorem alloc_cases (k : Krnl) (rgid : BitVec 32) (size : Addr) :
    (alloc k 0 rgid size = (k, none) ∧ ∀ slot, symIndex rgid = some slot → (k.mm.symrgtbl slot).Live) ∨
    ∃ slot, symIndex rgid = some slot ∧ ¬(k.mm.symrgtbl slot).Live ∧
      alloc k 0 rgid size = (k.placed slot size, some k.mm.regions.top) := by
  rw [alloc]
  cases index : symIndex rgid with
  | none => exact .inl ⟨rfl, by simp⟩
  | some slot =>
    simp only [getVmaByNum, le_refl, if_true]
    by_cases live : (k.mm.symrgtbl slot).Live
    · exact .inl ⟨if_pos live, by rintro _ ⟨⟩; exact live⟩
    · refine .inr ⟨slot, rfl, live, ?_⟩
      have needed : k.mm.mmap.sbrk + size - k.mm.mmap.sbrk = size := by
        rw [BitVec.add_comm, BitVec.add_sub_cancel]
      rw [if_neg live, needed, incVmaLimit_eq, if_pos (le_refl 0)]
      simp only [placeRegion, Krnl.placed, Regions.top, Regions.limit, MmStruct.regions]
      by_cases beyond : k.mm.mmap.vmEnd < k.mm.mmap.sbrk + size
      · simp only [beyond, if_true, ne_eq, not_true_eq_false, if_false]
        rfl
      · simp only [beyond, if_false]
        rfl

/-- `__free` refuses an index outside the table, an empty slot and an empty region. -/
theorem free_cases (k : Krnl) (rgid : BitVec 32) :
    free k rgid = (k, -1) ∨
    ∃ slot, symIndex rgid = some slot ∧
      (k.mm.symrgtbl slot).rgStart < (k.mm.symrgtbl slot).rgEnd ∧
      free k rgid = (k.released slot, 0) := by
  rw [free]
  cases index : symIndex rgid with
  | none => exact .inl rfl
  | some slot =>
    by_cases live : (k.mm.symrgtbl slot).Live
    · by_cases empty : (k.mm.symrgtbl slot).rgEnd ≤ (k.mm.symrgtbl slot).rgStart
      · exact .inl (by simp only [live, not_true_eq_false, if_false, empty, if_true])
      · refine .inr ⟨slot, rfl, BitVec.not_le.mp empty, ?_⟩
        simp only [live, not_true_eq_false, if_false, empty]
        rfl
    · exact .inl (by simp only [live, not_false_eq_true, if_true])

/-- The state in which `__read` and `__write` look at their region: as before, or with a region of
100 bytes for a symbol that had none. -/
inductive Opened (k : Krnl) (rgid : BitVec 32) : Krnl → Prop
  | as_is (live : ∀ slot, symIndex rgid = some slot → (k.mm.symrgtbl slot).Live) : Opened k rgid k
  | placed (slot : Fin 30) (index : symIndex rgid = some slot) (free : ¬(k.mm.symrgtbl slot).Live) :
      Opened k rgid (k.placed slot 100)

/-- The address that `__read` and `__write` access lies in the region of their symbol. -/
structure Inside (k : Krnl) (rgid : BitVec 32) (offset addr : Addr) (slot : Fin 30) : Prop where
  index : symIndex rgid = some slot
  nonempty : (k.mm.symrgtbl slot).rgStart < (k.mm.symrgtbl slot).rgEnd
  within : offset < (k.mm.symrgtbl slot).rgEnd - (k.mm.symrgtbl slot).rgStart
  addr_eq : addr = (k.mm.symrgtbl slot).rgStart + offset

private theorem locate_inside {k : Krnl} {rgid : BitVec 32} {slot : Fin 30} {offset addr : Addr}
    (index : symIndex rgid = some slot) (located : locate k slot offset = some addr) :
    Inside k rgid offset addr slot := by
  simp only [locate] at located
  split_ifs at located with empty outside
  exact ⟨index, BitVec.not_le.mp empty, BitVec.not_le.mp outside, (Option.some.inj located).symm⟩

theorem target_opened (k : Krnl) (rgid : BitVec 32) (offset : Addr) :
    Opened k rgid (target k 0 rgid offset).1 ∧ ∀ addr, (target k 0 rgid offset).2 = some addr →
      ∃ slot, Inside (target k 0 rgid offset).1 rgid offset addr slot := by
  rw [target]
  cases index : symIndex rgid with
  | none => exact ⟨.as_is (by simp [index]), by simp⟩
  | some slot =>
    simp only
    by_cases live : (k.mm.symrgtbl slot).Live
    · rw [if_pos live]
      refine ⟨.as_is fun other index' => ?_, fun addr located => ⟨slot, locate_inside index located⟩⟩
      rw [index] at index'
      cases index'
      exact live
    · rw [if_neg live]
      rcases alloc_cases k rgid 100 with ⟨-, used⟩ | ⟨slot', index', -, allocated⟩
      · exact (live (used slot index)).elim
      · rw [index] at index'
        cases index'
        rw [allocated]
        exact ⟨.placed slot index live, fun addr located => ⟨slot, locate_inside index located⟩⟩

/-- A symbol with a region that covers the offset is accessed at once. -/
theorem target_live {k : Krnl} {rgid : BitVec 32} {offset addr : Addr} {slot : Fin 30}
    (inside : Inside k rgid offset addr slot) (live : (k.mm.symrgtbl slot).Live) :
    target k 0 rgid offset = (k, some addr) := by
  simp only [target, inside.index, if_pos live, locate]
  rw [if_neg (BitVec.not_le.mpr inside.nonempty), if_neg (BitVec.not_le.mpr inside.within),
    inside.addr_eq]

end Libmem

/-- `k'` differs from `k` in RAM, in the root directory and in the list of mapped pages only. -/
def Krnl.SameRegions (k k' : Krnl) : Prop :=
  k'.mm = { k.mm with pgd := k'.mm.pgd, fifoPgn := k'.mm.fifoPgn }

theorem Krnl.SameRegions.trans {k k' k'' : Krnl} (first : k.SameRegions k') (second : k'.SameRegions k'') :
    k.SameRegions k'' := by
  unfold Krnl.SameRegions at *
  rw [second, first]

theorem Krnl.SameRegions.regions {k k' : Krnl} (same : k.SameRegions k') :
    k'.mm.regions = k.mm.regions := by
  unfold Krnl.SameRegions at same
  rw [same]
  rfl

/-- `k'` differs from `k` in RAM and in the root directory only. -/
def Krnl.OnlyTables (k k' : Krnl) : Prop := k'.mm = { k.mm with pgd := k'.mm.pgd }

theorem Krnl.OnlyTables.trans {k k' k'' : Krnl} (first : k.OnlyTables k') (second : k'.OnlyTables k'') :
    k.OnlyTables k'' := by
  unfold Krnl.OnlyTables at *
  rw [second, first]

theorem Krnl.OnlyTables.same {k k' : Krnl} (only : k.OnlyTables k') : k.SameRegions k' := by
  unfold Krnl.OnlyTables at only
  rw [Krnl.SameRegions, only]

theorem Krnl.OnlyTables.fifoPgn {k k' : Krnl} (only : k.OnlyTables k') :
    k'.mm.fifoPgn = k.mm.fifoPgn := by
  unfold Krnl.OnlyTables at only
  rw [only]

private theorem ensurePgd_tables (k : Krnl) (i : Fin 512) : k.OnlyTables (ensurePgd k i).1 := by
  rw [ensurePgd]
  split_ifs with present
  · rfl
  · cases k.mram.getFreefp <;> rfl

private theorem ensureTable_tables (k : Krnl) (table : ℕ) (i : Fin 512) :
    k.OnlyTables (ensureTable k table i).1 := by
  rw [ensureTable]
  split_ifs with present
  · rfl
  · cases k.mram.getFreefp <;> rfl

private theorem thenTable_tables {k : Krnl} {result : Krnl × Option ℕ} {next : Krnl → ℕ → Krnl × Option ℕ}
    (first : k.OnlyTables result.1) (later : ∀ (k : Krnl) (table : ℕ), k.OnlyTables (next k table).1) :
    k.OnlyTables (thenTable result next).1 := by
  rcases result with ⟨k', _ | table⟩
  · exact first
  · exact first.trans (later k' table)

theorem ensurePteMapping_tables (k : Krnl) (pd : Pd) : k.OnlyTables (ensurePteMapping k pd).1 :=
  thenTable_tables (ensurePgd_tables k _) fun k p4d =>
    thenTable_tables (ensureTable_tables k p4d _) fun k pud =>
      thenTable_tables (ensureTable_tables k pud _) fun k pmd => ensureTable_tables k pmd _

theorem pteSetFpn_tables (k : Krnl) (pgn : Addr) (fpn : ℕ) : k.OnlyTables (pteSetFpn k pgn fpn).1 := by
  simp only [pteSetFpn, getPdFromPagenum_eq]
  have mapped := ensurePteMapping_tables k (pdOf pgn)
  generalize ensurePteMapping k (pdOf pgn) = result at mapped
  rcases result with ⟨k', _ | table⟩ <;> exact mapped

private theorem pgGetpage_same (driver : Driver) (k : Krnl) (pgn : BitVec 32) :
    k.SameRegions (pgGetpage driver k pgn).1 := by
  simp only [pgGetpage]
  split_ifs with range present
  · rfl
  · rfl
  · cases k.mram.getFreefp with
    | none => rfl
    | some popped =>
      obtain ⟨fpn, mram⟩ := popped
      have set := (pteSetFpn_tables { k with mram } (pgn.signExtend 64) fpn).same
      simp only
      generalize pteSetFpn { k with mram } (pgn.signExtend 64) fpn = result at set
      obtain ⟨k', status⟩ := result
      simp only
      split_ifs <;> exact set.trans rfl

private theorem pgGetval_same (driver : Driver) (k : Krnl) (addr : BitVec 32) :
    k.SameRegions (pgGetval driver k addr).1 := by
  have same := pgGetpage_same driver k (pagingPgn addr)
  rw [pgGetval]
  generalize pgGetpage driver k (pagingPgn addr) = result at same
  rcases result with ⟨k', _ | fpn⟩ <;> exact same

private theorem pgSetval_same (driver : Driver) (k : Krnl) (addr : BitVec 32) (v : BitVec 8) :
    k.SameRegions (pgSetval driver k addr v).1 := by
  have same := pgGetpage_same driver k (pagingPgn addr)
  rw [pgSetval]
  generalize pgGetpage driver k (pagingPgn addr) = result at same
  rcases result with ⟨k', _ | fpn⟩
  · exact same
  · simp only
    cases k'.mram.write _ v <;> exact same

namespace Libmem

theorem read_same (driver : Driver) (k : Krnl) (rgid : BitVec 32) (offset : Addr) :
    (target k 0 rgid offset).1.SameRegions (read driver k 0 rgid offset).1 := by
  rw [read]
  rcases target k 0 rgid offset with ⟨k', _ | addr⟩
  · rfl
  · exact pgGetval_same driver k' _

theorem write_same (driver : Driver) (k : Krnl) (rgid : BitVec 32) (offset : Addr) (v : BitVec 8) :
    (target k 0 rgid offset).1.SameRegions (write driver k 0 rgid offset v).1 := by
  rw [write]
  rcases target k 0 rgid offset with ⟨k', _ | addr⟩
  · rfl
  · exact pgSetval_same driver k' _ v

end Libmem

/-- The bytes an action takes, rounded up to whole pages. -/
def RegionAction.cost : RegionAction → ℕ
  | .place _ size => Call.rounded size.toNat
  | .extend size => Call.rounded size.toNat
  | _ => 0

namespace Call

/-- The action of the automatic allocation of a read or a write. -/
def automatic (mm : MmStruct) (rgid : BitVec 32) : RegionAction :=
  match symIndex rgid with
  | none => .keep
  | some slot => if (mm.symrgtbl slot).Live then .keep else .place slot 100

/-- The action of a call on the regions of its process. -/
def action (mm : MmStruct) : Call → RegionAction
  | .alloc size reg =>
    match symIndex reg with
    | none => .keep
    | some slot => if (mm.symrgtbl slot).Live then .keep else .place slot size
  | .free reg =>
    match symIndex reg with
    | none => .keep
    | some slot =>
      if (mm.symrgtbl slot).rgStart < (mm.symrgtbl slot).rgEnd then .release slot else .keep
  | .read source _ => automatic mm source
  | .write _ destination _ => automatic mm destination
  | .inc a2 a3 => if (a2.setWidth 32).toInt ≤ 0 then .extend ((a3.setWidth 32).setWidth 64) else .keep

end Call

/-- The slot an action writes. -/
def RegionAction.slot : RegionAction → Option (Fin 30)
  | .place slot _ => some slot
  | .release slot => some slot
  | _ => none

theorem Regions.act_symrgtbl {R : Regions} {action : RegionAction} {s : Fin 30}
    (untouched : action.slot ≠ some s) : (R.act action).symrgtbl s = R.symrgtbl s := by
  cases action with
  | keep => rfl
  | extend size => rfl
  | place slot size => exact Function.update_of_ne (fun same => untouched (by rw [same]; rfl)) _ _
  | release slot => exact Function.update_of_ne (fun same => untouched (by rw [same]; rfl)) _ _

private theorem automatic_slot {mm : MmStruct} {rgid : BitVec 32} {s : Fin 30}
    (live : (mm.symrgtbl s).Live) : (Call.automatic mm rgid).slot ≠ some s := by
  rw [Call.automatic]
  cases symIndex rgid with
  | none => simp [RegionAction.slot]
  | some slot =>
    simp only
    split_ifs with used
    · simp [RegionAction.slot]
    · rintro ⟨⟩
      exact used live

/-- Only `libfree` touches a live slot. -/
theorem Call.action_slot {mm : MmStruct} {call : Call} {s : Fin 30} (live : (mm.symrgtbl s).Live)
    (touches : (call.action mm).slot = some s) : ∃ reg, call = .free reg ∧ symIndex reg = some s := by
  cases call with
  | alloc size reg =>
    rw [action] at touches
    cases index : symIndex reg with
    | none => simp [index, RegionAction.slot] at touches
    | some slot =>
      simp only [index] at touches
      split_ifs at touches with used
      · simp [RegionAction.slot] at touches
      · cases touches
        exact absurd live used
  | free reg =>
    refine ⟨reg, rfl, ?_⟩
    rw [action] at touches
    cases index : symIndex reg with
    | none => simp [index, RegionAction.slot] at touches
    | some slot =>
      simp only [index] at touches
      split_ifs at touches
      · exact touches
      · simp [RegionAction.slot] at touches
  | read source offset => exact absurd touches (automatic_slot live)
  | write data destination offset => exact absurd touches (automatic_slot live)
  | inc a2 a3 =>
    rw [action] at touches
    split_ifs at touches <;> simp [RegionAction.slot] at touches

theorem symIndex_injective {a b : BitVec 32} {s : Fin 30} (left : symIndex a = some s)
    (right : symIndex b = some s) : a = b := by
  have value : ∀ {x : BitVec 32}, symIndex x = some s → x.toNat = s := by
    intro x index
    rw [symIndex] at index
    split_ifs at index
    exact congrArg Fin.val (Option.some.inj index)
  exact BitVec.eq_of_toNat_eq ((value left).trans (value right).symm)

/-- The bytes of a region. -/
def VmRg.Contains (rg : VmRg) (addr : ℕ) : Prop := rg.rgStart.toNat ≤ addr ∧ addr < rg.rgEnd.toNat

theorem VmRg.live_of_lt {rg : VmRg} (nonempty : rg.rgStart < rg.rgEnd) : rg.Live := by
  rintro ⟨-, zero⟩
  rw [zero] at nonempty
  exact absurd nonempty BitVec.not_lt_zero

theorem Libmem.Opened.regions {rgid : BitVec 32} {k k' : Krnl} (opened : Libmem.Opened k rgid k') :
    k'.mm.regions = k.mm.regions.act (Call.automatic k.mm rgid) := by
  cases opened with
  | as_is live =>
    cases index : symIndex rgid with
    | none => simp only [Call.automatic, index]; rfl
    | some slot => simp only [Call.automatic, index, if_pos (live slot index)]; rfl
  | placed slot index free =>
    simp only [Call.automatic, index, if_neg free]
    rfl

/-- Every kernel routine is the action of its call. -/
theorem Call.kernel_regions (driver : Driver) (k : Krnl) (call : Call) :
    (call.kernel driver k).mm.regions = k.mm.regions.act (call.action k.mm) := by
  cases call with
  | alloc size reg =>
    rcases Libmem.alloc_cases k reg size with ⟨refused, live⟩ | ⟨slot, index, free, placed⟩
    · rw [kernel, refused, action]
      cases index : symIndex reg with
      | none => rfl
      | some slot => simp only [if_pos (live slot index)]; rfl
    · rw [kernel, placed, action]
      simp only [index, if_neg free]
      rfl
  | free reg =>
    rw [kernel, Libmem.free, action]
    cases index : symIndex reg with
    | none => rfl
    | some slot =>
      by_cases nonempty : (k.mm.symrgtbl slot).rgStart < (k.mm.symrgtbl slot).rgEnd
      · simp only [VmRg.live_of_lt nonempty, BitVec.not_le.mpr nonempty, not_true_eq_false, if_false,
          nonempty, if_true]
        rfl
      · simp only [nonempty, BitVec.not_lt.mp nonempty, if_true, if_false]
        split_ifs <;> rfl
  | read source offset =>
    exact (Libmem.read_same driver k source offset).regions.trans
      (Libmem.target_opened k source offset).1.regions
  | write data destination offset =>
    exact (Libmem.write_same driver k destination offset data).regions.trans
      (Libmem.target_opened k destination offset).1.regions
  | inc a2 a3 =>
    simp only [kernel, sysmemInc, incVmaLimit_eq, action]
    split_ifs <;> rfl

private theorem automatic_cost (mm : MmStruct) (rgid : BitVec 32) :
    (Call.automatic mm rgid).cost ≤ Call.requested.automatic mm rgid := by
  rw [Call.automatic, Call.requested.automatic]
  cases symIndex rgid with
  | none => exact Nat.zero_le _
  | some slot =>
    by_cases live : (mm.symrgtbl slot).Live
    · simp only [if_pos live]
      exact Nat.zero_le _
    · simp only [if_neg live]
      exact le_refl _

/-- A call takes no more than it requests. -/
theorem Call.action_cost (mm : MmStruct) (call : Call) : (call.action mm).cost ≤ call.requested mm := by
  cases call with
  | alloc size reg =>
    rw [action]
    cases symIndex reg with
    | none => exact Nat.zero_le _
    | some slot =>
      simp only
      split_ifs
      · exact Nat.zero_le _
      · exact le_refl _
  | free reg =>
    rw [action]
    cases symIndex reg with
    | none => exact Nat.zero_le _
    | some slot =>
      simp only
      split_ifs <;> exact Nat.zero_le _
  | read source offset => exact automatic_cost mm source
  | write data destination offset => exact automatic_cost mm destination
  | inc a2 a3 =>
    rw [action]
    split_ifs
    · rw [RegionAction.cost, requested, BitVec.toNat_setWidth, Nat.mod_eq_of_lt]
      omega
    · exact Nat.zero_le _

namespace Regions

variable {R : Regions} {action : RegionAction}

/-- Live regions lie between the first page and the break, apart from each other. -/
structure Laid (R : Regions) : Prop where
  base : pagingPagesz ≤ R.sbrk.toNat
  inside : ∀ s, (R.symrgtbl s).Live → pagingPagesz ≤ (R.symrgtbl s).rgStart.toNat ∧
    (R.symrgtbl s).rgStart.toNat ≤ (R.symrgtbl s).rgEnd.toNat ∧
    (R.symrgtbl s).rgEnd.toNat ≤ R.sbrk.toNat
  disjoint : ∀ s t, s ≠ t → (R.symrgtbl s).Live → (R.symrgtbl t).Live →
    (R.symrgtbl s).rgEnd.toNat ≤ (R.symrgtbl t).rgStart.toNat ∨
      (R.symrgtbl t).rgEnd.toNat ≤ (R.symrgtbl s).rgStart.toNat

/-- The action does not carry the break past 64 bits. -/
def Fits (R : Regions) : RegionAction → Prop
  | .place _ size => R.sbrk.toNat + size.toNat < 2 ^ 64
  | _ => True

instance (R : Regions) (action : RegionAction) : Decidable (R.Fits action) :=
  match action with
  | .keep => inferInstanceAs (Decidable True)
  | .place _ size => inferInstanceAs (Decidable (R.sbrk.toNat + size.toNat < 2 ^ 64))
  | .release _ => inferInstanceAs (Decidable True)
  | .extend _ => inferInstanceAs (Decidable True)

theorem Laid.top (laid : R.Laid) : R.top = R.sbrk := by
  apply if_neg
  intro zero
  have base := laid.base
  rw [zero] at base
  exact absurd base (by decide)

theorem Laid.initial (heap : Malloc) : (initMm heap).regions.Laid where
  base := (by decide : pagingPagesz ≤ (BitVec.ofNat 64 pagingPagesz).toNat)
  inside _ live := absurd ⟨rfl, rfl⟩ live
  disjoint _ _ _ live := absurd ⟨rfl, rfl⟩ live

/-- A region placed at the break is above all others. -/
private theorem Laid.place (laid : R.Laid) {slot : Fin 30} {size : Addr}
    (fits : R.sbrk.toNat + size.toNat < 2 ^ 64) : (R.act (.place slot size)).Laid := by
  have base := laid.base
  have finish : (R.sbrk + size).toNat = R.sbrk.toNat + size.toNat := by
    rw [BitVec.toNat_add, Nat.mod_eq_of_lt fits]
  simp only [act, laid.top]
  refine ⟨?_, fun s live => ?_, fun s t different liveS liveT => ?_⟩
  · simp only [finish]
    omega
  · simp only [Function.update_apply, finish] at live ⊢
    split_ifs at live ⊢ with here
    · simp only [finish]
      omega
    · obtain ⟨low, order, below⟩ := laid.inside s live
      exact ⟨low, order, by omega⟩
  · simp only [Function.update_apply] at liveS liveT ⊢
    split_ifs at liveS liveT ⊢ with hereS hereT hereT
    · exact absurd (hereS.trans hereT.symm) different
    · exact .inr (laid.inside t liveT).2.2
    · exact .inl (laid.inside s liveS).2.2
    · exact laid.disjoint s t different liveS liveT

private theorem Laid.release (laid : R.Laid) (slot : Fin 30) : (R.act (.release slot)).Laid := by
  have old : ∀ s, ((R.act (.release slot)).symrgtbl s).Live →
      (R.act (.release slot)).symrgtbl s = R.symrgtbl s ∧ (R.symrgtbl s).Live := by
    intro s live
    simp only [act, Function.update_apply] at live ⊢
    split_ifs at live ⊢ with here
    · exact absurd ⟨rfl, rfl⟩ live
    · exact ⟨rfl, live⟩
  refine ⟨laid.base, fun s live => ?_, fun s t different liveS liveT => ?_⟩
  · rw [(old s live).1]
    exact laid.inside s (old s live).2
  · rw [(old s liveS).1, (old t liveT).1]
    exact laid.disjoint s t different (old s liveS).2 (old t liveT).2

/-- Every action that fits keeps the regions laid out. -/
theorem Laid.act (laid : R.Laid) (fits : R.Fits action) : (R.act action).Laid := by
  cases action with
  | keep => exact laid
  | place slot size => exact laid.place fits
  | release slot => exact laid.release slot
  | extend size => exact ⟨laid.base, laid.inside, laid.disjoint⟩

end Regions

/-- The mask clears the offset bits. -/
theorem roundUp_value (size : Addr) : (roundUp size).toNat = (size.toNat + 4095) % 2 ^ 64 / 4096 * 4096 := by
  have shifted (x : Addr) : x &&& ~~~(4095#64) = (x >>> 12) <<< 12 := by
    apply BitVec.eq_of_getLsbD_eq
    intro i bound
    have mask : (4095#64).getLsbD i = decide (i < 12) := by
      rw [BitVec.getLsbD_ofNat, show 4095 = 2 ^ 12 - 1 from rfl, Nat.testBit_two_pow_sub_one]
      simp [bound]
    simp only [BitVec.getLsbD_and, BitVec.getLsbD_not, mask, bound, decide_true, Bool.true_and,
      BitVec.getLsbD_shiftLeft, BitVec.getLsbD_ushiftRight]
    by_cases low : i < 12
    · simp [low]
    · simp [low, show 12 + (i - 12) = i by omega]
  have sum : (size + 4096#64 - 1#64).toNat = (size.toNat + 4095) % 2 ^ 64 := by
    have same : size + 4096#64 - 1#64 = size + 4095#64 := by bv_omega
    rw [same, BitVec.toNat_add]
    rfl
  have form : roundUp size = (size + 4096#64 - 1#64) &&& ~~~(4095#64) := rfl
  rw [form, shifted, BitVec.toNat_shiftLeft, BitVec.toNat_ushiftRight, sum, Nat.shiftLeft_eq,
    Nat.shiftRight_eq_div_pow]
  omega

theorem roundUp_toNat {size : Addr} (small : size.toNat + 4095 < 2 ^ 64) :
    (roundUp size).toNat = Call.rounded size.toNat := by
  rw [roundUp_value, Nat.mod_eq_of_lt small, Call.rounded]
  rfl

namespace Regions

variable {R : Regions} {action : RegionAction} {total : ℕ}

/-- The region invariant after requests of `total` bytes. -/
structure Sound (R : Regions) (total : ℕ) : Prop extends Laid R where
  break_le : R.sbrk.toNat ≤ R.vmEnd.toNat
  aligned : R.vmEnd.toNat % pagingPagesz = 0
  limit_le : R.vmEnd.toNat ≤ 0x100000 + total

theorem Sound.initial (heap : Malloc) : (initMm heap).regions.Sound 0 where
  toLaid := .initial heap
  break_le := (by decide : (BitVec.ofNat 64 pagingPagesz).toNat ≤ (0x100000#64).toNat)
  aligned := (by decide : (0x100000#64).toNat % pagingPagesz = 0)
  limit_le := (by decide : (0x100000#64).toNat ≤ 0x100000 + 0)

private theorem rounded_le (size : ℕ) : size ≤ Call.rounded size ∧ Call.rounded size % pagingPagesz = 0 := by
  simp only [Call.rounded, pagingPagesz]
  omega

/-- An action within the budget keeps the invariant, and the break and the limit do not fall. -/
theorem Sound.act (sound : R.Sound total) (budget : total + action.cost < 2 ^ 63) :
    (R.act action).Sound (total + action.cost) ∧ R.sbrk.toNat ≤ (R.act action).sbrk.toNat ∧
      R.vmEnd.toNat ≤ (R.act action).vmEnd.toNat := by
  have limit := sound.limit_le
  have breakLe := sound.break_le
  have aligned := sound.aligned
  cases action with
  | keep => exact ⟨sound, le_refl _, le_refl _⟩
  | release slot => exact ⟨⟨sound.toLaid.release slot, breakLe, aligned, limit⟩, le_refl _, le_refl _⟩
  | extend size =>
    obtain ⟨above, multiple⟩ := rounded_le size.toNat
    simp only [RegionAction.cost] at budget ⊢
    have moved : (R.vmEnd + roundUp size).toNat = R.vmEnd.toNat + Call.rounded size.toNat := by
      rw [BitVec.toNat_add, roundUp_toNat (by omega), Nat.mod_eq_of_lt (by omega)]
    refine ⟨⟨⟨sound.base, sound.inside, sound.disjoint⟩, ?_, ?_, ?_⟩, le_refl _, ?_⟩
    all_goals simp only [Regions.act, moved, pagingPagesz] at aligned multiple ⊢
    all_goals omega
  | place slot size =>
    obtain ⟨above, multiple⟩ := rounded_le size.toNat
    simp only [RegionAction.cost] at budget ⊢
    have fits : R.sbrk.toNat + size.toNat < 2 ^ 64 := by omega
    have finish : (R.sbrk + size).toNat = R.sbrk.toNat + size.toNat := by
      rw [BitVec.toNat_add, Nat.mod_eq_of_lt fits]
    have moved : R.vmEnd.toNat < R.sbrk.toNat + size.toNat ∧
          (R.limit size).toNat = R.vmEnd.toNat + Call.rounded size.toNat ∨
        R.sbrk.toNat + size.toNat ≤ R.vmEnd.toNat ∧ (R.limit size).toNat = R.vmEnd.toNat := by
      rw [Regions.limit]
      simp only [BitVec.lt_def, finish]
      split_ifs with beyond
      · rw [BitVec.toNat_add, roundUp_toNat (by omega), Nat.mod_eq_of_lt (by omega)]
        exact .inl ⟨beyond, rfl⟩
      · exact .inr ⟨by omega, rfl⟩
    refine ⟨⟨sound.toLaid.place fits, ?_, ?_, ?_⟩, ?_, ?_⟩
    all_goals simp only [Regions.act, sound.toLaid.top, finish, pagingPagesz] at aligned multiple ⊢
    all_goals omega

end Regions

namespace Libmem

variable {k k' : Krnl} {r r' : BitVec 32} {off off' addr : Addr} {slot slot' : Fin 30}

theorem Inside.congr (inside : Inside k r off addr slot)
    (same : k'.mm.symrgtbl slot = k.mm.symrgtbl slot) : Inside k' r off addr slot :=
  ⟨inside.index, same ▸ inside.nonempty, same ▸ inside.within, same ▸ inside.addr_eq⟩

/-- An accessed address lies in the bytes of its region. -/
theorem Inside.bounds (inside : Inside k r off addr slot) :
    addr.toNat = (k.mm.symrgtbl slot).rgStart.toNat + off.toNat ∧
      addr.toNat < (k.mm.symrgtbl slot).rgEnd.toNat := by
  have nonempty := BitVec.lt_def.mp inside.nonempty
  have within := BitVec.lt_def.mp inside.within
  have bound := (k.mm.symrgtbl slot).rgEnd.isLt
  rw [BitVec.toNat_sub_of_le (BitVec.le_of_lt inside.nonempty)] at within
  have sum : addr.toNat = (k.mm.symrgtbl slot).rgStart.toNat + off.toNat := by
    rw [inside.addr_eq, BitVec.toNat_add, Nat.mod_eq_of_lt (by omega)]
  exact ⟨sum, by omega⟩

/-- An address is accessed through one symbol and one offset only. -/
theorem Inside.unique (laid : k.mm.regions.Laid) (inside : Inside k r off addr slot)
    (inside' : Inside k r' off' addr slot') : r = r' ∧ off = off' := by
  obtain ⟨sum, below⟩ := inside.bounds
  obtain ⟨sum', below'⟩ := inside'.bounds
  have same : slot = slot' := by
    by_contra different
    have apart := laid.disjoint slot slot' different (VmRg.live_of_lt inside.nonempty)
      (VmRg.live_of_lt inside'.nonempty)
    simp only [MmStruct.regions] at apart
    omega
  subst same
  exact ⟨symIndex_injective inside.index inside'.index, BitVec.eq_of_toNat_eq (by omega)⟩

end Libmem

/-- A process after `init_mm` on a RAM of eight free frames. -/
def Krnl.newborn : Krnl := ⟨initMm ⟨fun _ => 0, [], fun _ => 0⟩, initMemphy 8 fun _ => 0⟩

end SimpleOS.Model
