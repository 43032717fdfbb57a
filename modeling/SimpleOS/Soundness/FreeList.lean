import SimpleOS.Proofs.Ownership
import SimpleOS.Soundness.Release

/-! # The list of free regions

`vm_freerg_list` is filled once, by `init_mm`: `__alloc` takes every region from the break and `__free`
clears the symbol only, so neither removes a region from the list nor adds one. The node of `init_mm`
covers the whole initial area, and the first region with a byte in it already overlaps that node.
-/

namespace SimpleOS.Model

open Lib

variable {ι : Type} [DecidableEq ι] {m m' now after : Machine ι} {P : ι} {driver : Driver} {e : Event ι}

/-- No byte is both in a region of the free list and in a region of the symbol table. -/
def MmStruct.FreeApart (mm : MmStruct) : Prop :=
  ∀ rg ∈ mm.mmap.vmFreergList, ∀ slot, (mm.symrgtbl slot).Live →
    ∀ addr, ¬(rg.Contains addr ∧ (mm.symrgtbl slot).Contains addr)

/-- When the step is a FREE by `P` that returns 0, the bytes of the released region are on the free list. -/
def Machine.FreedListed (m : Machine ι) (P : ι) (e : Event ι) (m' : Machine ι) : Prop :=
  ∀ reg data slot, e.proc = P → e.call = .free reg → e.reply = some ⟨0, data⟩ → symIndex reg = some slot →
    ∀ addr, ((m.procs P).mm.symrgtbl slot).Contains addr →
      ∃ rg ∈ (m'.procs P).mm.mmap.vmFreergList, rg.Contains addr

/-- The step places a region of `P` that has at least one byte. -/
def Machine.PlacesBytes (m : Machine ι) (P : ι) (e : Event ι) : Prop :=
  e.proc = P ∧ ∃ slot size, e.call.action (m.procs P).mm = .place slot size ∧
    (m.procs P).mm.regions.top < (m.procs P).mm.regions.top + size

private theorem Libmem.Opened.freergList {rgid : BitVec 32} {k k' : Krnl} (opened : Libmem.Opened k rgid k') :
    k'.mm.mmap.vmFreergList = k.mm.mmap.vmFreergList := by
  cases opened with
  | as_is live => rfl
  | placed slot index free => rfl

private theorem Krnl.SameRegions.mmap {k k' : Krnl} (same : k.SameRegions k') : k'.mm.mmap = k.mm.mmap := by
  unfold Krnl.SameRegions at same
  rw [same]

/-- No kernel routine touches the free list. -/
theorem Call.kernel_freergList (driver : Driver) (k : Krnl) (call : Call) :
    (call.kernel driver k).mm.mmap.vmFreergList = k.mm.mmap.vmFreergList := by
  cases call with
  | alloc size reg =>
    obtain ⟨refused, -⟩ | ⟨slot, -, -, placed⟩ := Libmem.alloc_cases k reg size
    · rw [kernel, refused]
    · rw [kernel, placed]
      rfl
  | free reg =>
    obtain refused | ⟨slot, -, -, released⟩ := Libmem.free_cases k reg
    · rw [kernel, refused]
    · rw [kernel, released]
      rfl
  | read source offset =>
    rw [kernel, (Libmem.read_same driver k source offset).mmap]
    exact (Libmem.target_opened k source offset).1.freergList
  | write data destination offset =>
    rw [kernel, (Libmem.write_same driver k destination offset data).mmap]
    exact (Libmem.target_opened k destination offset).1.freergList
  | inc a2 a3 =>
    rw [kernel, sysmemInc, incVmaLimit_eq]
    split_ifs <;> rfl

private theorem Machine.Step.freergList (step : Machine.Step driver m e m') (P : ι) :
    (m'.procs P).mm.mmap.vmFreergList = (m.procs P).mm.mmap.vmFreergList := by
  obtain ⟨k, leaves, routine⟩ := step.kernel
  by_cases here : P = e.proc
  · subst here
    rw [leaves.self]
    obtain rfl | ⟨-, rfl⟩ := routine
    · exact Call.kernel_freergList driver (m.task e.proc).krnl e.call
    · rfl
  · rw [leaves.other P here]

/-- The list is as `init_mm` left it, no region of the table has a byte, and the break has not passed
the first page. -/
structure MmStruct.Barren (mm : MmStruct) : Prop where
  listed : ⟨0, 0x100000⟩ ∈ mm.mmap.vmFreergList
  empty : ∀ slot, ¬(mm.symrgtbl slot).rgStart < (mm.symrgtbl slot).rgEnd
  low : mm.mmap.sbrk.toNat ≤ pagingPagesz

theorem MmStruct.Barren.initial (heap : Malloc) : (initMm heap).Barren where
  listed := List.mem_cons_self ..
  empty _ := by simp [initMm]
  low := by simp [initMm, pagingPagesz]

private theorem MmStruct.Barren.top {mm : MmStruct} (barren : mm.Barren) : mm.regions.top.toNat ≤ pagingPagesz := by
  rw [Regions.top]
  split
  · decide
  · exact barren.low

private theorem VmRg.Contains.nonempty {rg : VmRg} {addr : ℕ} (inside : rg.Contains addr) : rg.rgStart < rg.rgEnd :=
  BitVec.lt_def.mpr (Nat.lt_of_le_of_lt inside.1 inside.2)

private theorem MmStruct.Barren.freeApart {mm : MmStruct} (barren : mm.Barren) : mm.FreeApart := by
  intro rg _ slot _ addr both
  exact barren.empty slot both.2.nonempty

private theorem MmStruct.Barren.act {mm mm' : MmStruct} {action : RegionAction} (barren : mm.Barren)
    (acted : mm'.regions = mm.regions.act action) (list : mm'.mmap.vmFreergList = mm.mmap.vmFreergList)
    (without : ∀ slot size, action = .place slot size → ¬mm.regions.top < mm.regions.top + size) :
    mm'.Barren := by
  have table : mm'.symrgtbl = (mm.regions.act action).symrgtbl := congrArg Regions.symrgtbl acted
  have sbrk : mm'.mmap.sbrk = (mm.regions.act action).sbrk := congrArg Regions.sbrk acted
  have listed : ⟨0, 0x100000⟩ ∈ mm'.mmap.vmFreergList := by
    rw [list]
    exact barren.listed
  cases action with
  | keep =>
    refine ⟨listed, ?_, sbrk ▸ barren.low⟩
    rw [table]
    exact barren.empty
  | place slot size =>
    have bytes := without slot size rfl
    refine ⟨listed, ?_, ?_⟩
    · intro other
      rw [table]
      simp only [Regions.act, Function.update_apply]
      split
      · exact bytes
      · exact barren.empty other
    · rw [sbrk]
      exact (BitVec.le_def.mp (BitVec.not_lt.mp bytes)).trans barren.top
  | release slot =>
    refine ⟨listed, ?_, sbrk ▸ barren.low⟩
    intro other
    rw [table]
    simp only [Regions.act, Function.update_apply]
    split
    · simp
    · exact barren.empty other
  | extend size =>
    refine ⟨listed, ?_, sbrk ▸ barren.low⟩
    rw [table]
    exact barren.empty

/-- A step that places no byte keeps all regions without bytes. -/
theorem MmStruct.Barren.step (barren : (m.procs P).mm.Barren) (step : Machine.Step driver m e m')
    (without : ¬m.PlacesBytes P e) : (m'.procs P).mm.Barren := by
  have list := step.freergList P
  obtain ⟨here, acted⟩ | ⟨-, same⟩ := step.regions P
  · exact barren.act acted list fun slot size places bytes => without ⟨here, slot, size, places, bytes⟩
  · exact barren.act (same.trans rfl : _ = (m.procs P).mm.regions.act .keep) list nofun

/-- A region with a byte overlaps the node of the initial area. -/
private theorem MmStruct.Barren.overlap (barren : (m.procs P).mm.Barren) (step : Machine.Step driver m e m')
    (places : m.PlacesBytes P e) : ¬(m'.procs P).mm.FreeApart := by
  obtain ⟨here, slot, size, place, bytes⟩ := places
  obtain ⟨-, acted⟩ | ⟨freed, -⟩ := step.regions P
  · rw [place] at acted
    have table : (m'.procs P).mm.symrgtbl slot =
        ⟨(m.procs P).mm.regions.top, (m.procs P).mm.regions.top + size⟩ :=
      (congrFun (congrArg Regions.symrgtbl acted) slot).trans (Function.update_self ..)
    intro apart
    have listed : ⟨0, 0x100000⟩ ∈ (m'.procs P).mm.mmap.vmFreergList := by
      rw [step.freergList P]
      exact barren.listed
    have low := barren.top
    refine apart _ listed slot ?_ (m.procs P).mm.regions.top.toNat ⟨⟨Nat.zero_le _, ?_⟩, ?_⟩
    · rw [table]
      exact fun empty => Regions.top_ne_zero _ empty.1
    · refine Nat.lt_of_le_of_lt low ?_
      decide
    · rw [table]
      exact ⟨le_refl _, BitVec.lt_def.mp bytes⟩
  · obtain ⟨reg, call⟩ := freed here
    rw [call, Call.action] at place
    split at place
    · cases place
    · split at place <;> cases place

/-- ALLOC into a register and FREE of it. -/
def Task.cycle (size : Addr) (reg : Fin 10) (t : Task) : Except Fault Task := do
  let (t, _) ← liballoc t size (BitVec.ofNat 32 reg)
  let (t, _) ← libfree t (BitVec.ofNat 32 reg)
  return t

/-- `n` repetitions. -/
def Task.cycles (size : Addr) (reg : Fin 10) (t : Task) : ℕ → Except Fault Task
  | 0 => .ok t
  | n + 1 => do
    let t ← t.cycles size reg n
    t.cycle size reg

/-- Any number of repetitions leaves `vm_end` and the break where a single one does. -/
def Task.Recycles (t : Task) (size : Addr) (reg : Fin 10) : Prop :=
  ∀ n, 1 ≤ n → ∃ once many, t.cycles size reg 1 = .ok once ∧ t.cycles size reg n = .ok many ∧
    many.proc.mm.mmap.vmEnd = once.proc.mm.mmap.vmEnd ∧ many.proc.mm.mmap.sbrk = once.proc.mm.mmap.sbrk

private theorem Task.allocated_region (t : Task) (reg : Fin 10) (size : Addr) :
    (t.allocated reg size).proc.mm.symrgtbl (symbol reg) =
      ⟨t.proc.mm.regions.top, t.proc.mm.regions.top + size⟩ :=
  Function.update_self ..

private theorem Task.allocated_reg (t : Task) (reg : Fin 10) (size : Addr) :
    (t.allocated reg size).proc.regs reg ≠ 0 := by
  have written : (t.allocated reg size).proc.regs reg = t.proc.mm.regions.top := Function.update_self ..
  rw [written]
  exact Regions.top_ne_zero _

/-- A repetition with a region that has bytes moves the break past it. -/
private theorem Task.cycle_moves {t : Task} {reg : Fin 10} {size : Addr}
    (free : ¬(t.proc.mm.symrgtbl (symbol reg)).Live)
    (bytes : t.proc.mm.regions.top < t.proc.mm.regions.top + size) :
    ∃ t', t.cycle size reg = .ok t' ∧ ¬(t'.proc.mm.symrgtbl (symbol reg)).Live ∧
      t'.proc.mm.mmap.sbrk = t.proc.mm.regions.top + size := by
  have nonempty : ((t.allocated reg size).krnl.mm.symrgtbl (symbol reg)).rgStart <
      ((t.allocated reg size).krnl.mm.symrgtbl (symbol reg)).rgEnd := by
    change ((t.allocated reg size).proc.mm.symrgtbl (symbol reg)).rgStart <
      ((t.allocated reg size).proc.mm.symrgtbl (symbol reg)).rgEnd
    rw [t.allocated_region]
    exact bytes
  refine ⟨(t.allocated reg size).setKrnl ((t.allocated reg size).krnl.released (symbol reg)), ?_, ?_, rfl⟩
  · rw [Task.cycle, liballoc_free size free]
    change (do let (t, _) ← libfree (t.allocated reg size) (BitVec.ofNat 32 reg); return t) = _
    rw [libfree_reg, if_neg (t.allocated_reg reg size), Libmem.free_nonempty (symIndex_reg reg) nonempty]
    rfl
  · simp [Task.setKrnl, Krnl.released, VmRg.Live]

/-- `libfree` on a region without bytes does nothing. -/
private theorem libfree_empty {t : Task} {reg : Fin 10}
    (empty : ¬(t.proc.mm.symrgtbl (symbol reg)).rgStart < (t.proc.mm.symrgtbl (symbol reg)).rgEnd) :
    libfree t (BitVec.ofNat 32 reg) = .ok (t, -1) := by
  rw [libfree_reg]
  split
  · rfl
  · obtain refused | ⟨slot, index, nonempty, -⟩ := Libmem.free_cases t.krnl (BitVec.ofNat 32 reg)
    · rw [refused]
      rfl
    · cases (symIndex_reg reg).symm.trans index
      exact absurd nonempty empty

/-- With a region without bytes in the table neither ALLOC nor FREE does anything. -/
private theorem Task.cycle_stuck {t : Task} {reg : Fin 10} (size : Addr) (live : (t.proc.mm.symrgtbl (symbol reg)).Live)
    (empty : ¬(t.proc.mm.symrgtbl (symbol reg)).rgStart < (t.proc.mm.symrgtbl (symbol reg)).rgEnd) :
    t.cycle size reg = .ok t := by
  have refused : liballoc t size (BitVec.ofNat 32 reg) = .ok (t, -1) := by
    rw [liballoc]
    obtain ⟨refused, -⟩ | ⟨slot, index, free, -⟩ := Libmem.alloc_cases t.krnl (BitVec.ofNat 32 reg) size
    · rw [refused]
      rfl
    · cases (symIndex_reg reg).symm.trans index
      exact absurd live free
  rw [Task.cycle, refused]
  change (do let (t, _) ← libfree t (BitVec.ofNat 32 reg); return t) = _
  rw [libfree_empty empty]
  rfl

private theorem Task.cycles_zero {t : Task} {reg : Fin 10} (free : ¬(t.proc.mm.symrgtbl (symbol reg)).Live) (n : ℕ) :
    t.cycles 0 reg (n + 1) = .ok (t.allocated reg 0) := by
  have region := t.allocated_region reg 0
  have empty : ¬((t.allocated reg 0).proc.mm.symrgtbl (symbol reg)).rgStart <
      ((t.allocated reg 0).proc.mm.symrgtbl (symbol reg)).rgEnd := by
    rw [region]
    simp
  induction n with
  | zero =>
    change t.cycle 0 reg = _
    rw [Task.cycle, liballoc_free 0 free]
    change (do let (t, _) ← libfree (t.allocated reg 0) (BitVec.ofNat 32 reg); return t) = _
    rw [libfree_empty empty]
    rfl
  | succ n ih =>
    rw [Task.cycles, ih]
    change (t.allocated reg 0).cycle 0 reg = _
    refine Task.cycle_stuck 0 ?_ empty
    rw [region]
    exact fun zero => Regions.top_ne_zero _ zero.1

/-- Repetitions from a fresh process leave the area alone exactly for regions without bytes. -/
private theorem Task.recycles_iff {t : Task} {heap : Malloc} (fresh : t.proc.mm = initMm heap) (reg : Fin 10)
    {size : Addr} (fits : size.toNat ≤ 0x100000) : t.Recycles size reg ↔ size = 0 := by
  have free : ¬(t.proc.mm.symrgtbl (symbol reg)).Live := by
    rw [fresh]
    simp [initMm, VmRg.Live]
  have top : t.proc.mm.regions.top = 4096 := by
    rw [fresh]
    rfl
  constructor
  · intro recycles
    by_contra nonzero
    have positive : size.toNat ≠ 0 := fun zero => nonzero (BitVec.eq_of_toNat_eq zero)
    have bytes : t.proc.mm.regions.top < t.proc.mm.regions.top + size := by
      rw [top]
      bv_omega
    obtain ⟨t₁, first, free₁, sbrk₁⟩ := Task.cycle_moves free bytes
    have top₁ : t₁.proc.mm.regions.top = 4096 + size := by
      rw [Regions.top]
      change (if t₁.proc.mm.mmap.sbrk = 0 then _ else t₁.proc.mm.mmap.sbrk) = _
      rw [sbrk₁, top, if_neg (by bv_omega)]
    have bytes₁ : t₁.proc.mm.regions.top < t₁.proc.mm.regions.top + size := by
      rw [top₁]
      bv_omega
    obtain ⟨t₂, second, -, sbrk₂⟩ := Task.cycle_moves free₁ bytes₁
    obtain ⟨once, many, ran₁, ran₂, -, same⟩ := recycles 2 (by omega)
    have once_eq : t.cycles size reg 1 = .ok t₁ := first
    have many_eq : t.cycles size reg 2 = .ok t₂ := by
      rw [Task.cycles, once_eq]
      exact second
    cases ran₁.symm.trans once_eq
    cases ran₂.symm.trans many_eq
    rw [sbrk₂, sbrk₁, top₁, top] at same
    bv_omega
  · rintro rfl n positive
    obtain ⟨n, rfl⟩ : ∃ k, n = k + 1 := ⟨n - 1, by omega⟩
    exact ⟨_, _, Task.cycles_zero free 0, Task.cycles_zero free n, rfl, rfl⟩

/-- In a run that placed no region with a byte, the next step keeps free and live regions apart and lists
what it frees exactly when it places none either; repeated ALLOC and FREE leave the area alone exactly for
regions without bytes. -/
theorem freeList_partition_iff {m₀ : Machine ι} {labels : List (Event ι)}
    (initial : ∃ heap, (m₀.procs P).mm = initMm heap)
    (run : Run (guarded (fun m e => ¬m.PlacesBytes P e) (Machine.Step driver)) m₀ labels now)
    (step : Machine.Step driver now e after) :
    ((after.procs P).mm.FreeApart ∧ now.FreedListed P e after ↔ ¬now.PlacesBytes P e) ∧
      ∀ (reg : Fin 10) (size : Addr), size.toNat ≤ 0x100000 → ((m₀.task P).Recycles size reg ↔ size = 0) := by
  obtain ⟨heap, fresh⟩ := initial
  have first : (m₀.procs P).mm.Barren := by
    rw [fresh]
    exact .initial heap
  have barren : (now.procs P).mm.Barren := by
    apply run.keeps first
    rintro m e m' barren ⟨without, step⟩
    exact barren.step step without
  refine ⟨⟨?_, ?_⟩, fun reg size fits => Task.recycles_iff fresh reg fits⟩
  · rintro ⟨apart, -⟩ places
    exact barren.overlap step places apart
  · intro without
    refine ⟨(barren.step step without).freeApart, ?_⟩
    intro reg data slot _ _ _ _ addr inside
    exact absurd inside.nonempty (barren.empty slot)

/-- The first call of a fresh process: ALLOC into register 1. -/
private theorem Machine.boot_alloc (driver : Driver) (size : Addr) :
    let m := Machine.boot 16 (fun _ : Unit => 1) fun _ => []
    Machine.Step driver m ⟨(), .alloc size 1, Call.requested (m.procs ()).mm (.alloc size 1), some ⟨0, none⟩⟩
      (m.put () ((m.task ()).allocated 1 size)) := by
  intro m
  apply Machine.step_alloc m () size 1
  simp [m, Machine.boot, loadProc, initMm, VmRg.Live]

theorem freeList_partition_empty :
    let m := Machine.boot 16 (fun _ : Unit => 1) fun _ => []
    ((m.put () ((m.task ()).allocated 1 0)).procs ()).mm.FreeApart ∧ (m.task ()).Recycles 0 1 := by
  intro m
  obtain ⟨kept, recycled⟩ :=
    freeList_partition_iff ⟨_, rfl⟩ (.start : Run _ m [] m) (Machine.boot_alloc .head 0)
  refine ⟨(kept.mpr ?_).1, (recycled 1 0 (by decide)).mpr rfl⟩
  rintro ⟨-, slot, size, place, bytes⟩
  have placed : RegionAction.place 1 0 = .place slot size := place
  cases placed
  revert bytes
  decide

/-- After `alloc 8 1` the byte 4096 is in the live region and still in the free one. -/
theorem alloc_overlaps_free_list :
    let m := Machine.boot 16 (fun _ : Unit => 1) fun _ => []
    ¬∀ e after, Machine.Step .head m e after → (after.procs ()).mm.FreeApart := by
  intro m apart
  have overlap := apart _ _ (Machine.boot_alloc .head 8) ⟨0, 0x100000⟩ (List.mem_cons_self ..) 1 (by decide) 4096
  exact overlap ⟨⟨by decide, by decide⟩, ⟨by decide, by decide⟩⟩

end SimpleOS.Model
