import SimpleOS.Proofs.Ownership

/-! # Bytes held by a symbol

`Machine.Holds` is the fact that is carried along a run: the region of a symbol covers an offset, the
page of the address has a frame, and a byte is in it. A read delivers what is held; a write holds
what it stored. A call of another process keeps it, and so does a call of the process itself that
neither releases the symbol nor writes there, as long as different addresses of its live regions
have different pages or offsets.
-/

namespace SimpleOS.Model

open Lib

variable {ι : Type} [DecidableEq ι] {m m' : Machine ι} {n : ℕ} {driver : Driver} {P Q : ι}
  {k : Krnl} {others : ι → Fin 512 → Addr} {r : BitVec 32} {off : Addr} {v : BitVec 8} {e : Event ι}

/-- The address lies in a live region. -/
def MmStruct.LiveAt (mm : MmStruct) (addr : Addr) : Prop :=
  ∃ s, (mm.symrgtbl s).Live ∧ (mm.symrgtbl s).Contains addr.toNat

/-- Different addresses in live regions have different pages or offsets, as `pg_getval` and
`pg_setval` compute them. -/
def DistinctBytes (mm : MmStruct) : Prop :=
  ∀ x y, mm.LiveAt x → mm.LiveAt y → x ≠ y →
    ¬(pagingPgn (x.setWidth 32) = pagingPgn (y.setWidth 32) ∧
      pagingOffst (x.setWidth 32) = pagingOffst (y.setWidth 32))

private theorem Libmem.Inside.liveAt {addr : Addr} {slot : Fin 30} (inside : Libmem.Inside k r off addr slot) :
    k.mm.LiveAt addr := by
  obtain ⟨sum, below⟩ := inside.bounds
  exact ⟨slot, VmRg.live_of_lt inside.nonempty, by omega, below⟩

/-- The call returned 0. -/
def Event.Succeeded (e : Event ι) : Prop := ∃ data, e.reply = some ⟨0, data⟩

theorem byteAt_storeByte_same (owned : Owned n (k.links others P) k.mram) {pgn : Addr} {f offset : ℕ}
    (page : (k.links others P).frameAt (pageRoot P pgn) (pagePath pgn) = some f)
    (bound : offset < pagingPagesz) (v : BitVec 8) :
    byteAt ((k.storeByte f offset v).links others P) (k.storeByte f offset v).mram P pgn offset = some v := by
  have deep := pagePath_length pgn
  rw [byteAt, frameAt_storeByte owned.frames deep page bound v _ _ (by omega), page, Option.map_some]
  exact congrArg some (Bytes.writeByte_same v)

/-- A stored byte changes no byte at another position or offset. -/
theorem byteAt_storeByte_other (owned : Owned n (k.links others P) k.mram) {pgn pgn' : Addr}
    {f offset offset' : ℕ} (page : (k.links others P).frameAt (pageRoot P pgn) (pagePath pgn) = some f)
    (bound : offset < pagingPagesz) (bound' : offset' < pagingPagesz) (v : BitVec 8)
    (different : pdOf pgn = pdOf pgn' → offset ≠ offset') :
    byteAt ((k.storeByte f offset v).links others P) (k.storeByte f offset v).mram P pgn' offset' =
      byteAt (k.links others P) k.mram P pgn' offset' := by
  have deep := pagePath_length pgn
  have deep' := pagePath_length pgn'
  rw [byteAt, byteAt, frameAt_storeByte owned.frames deep page bound v _ _ (by omega)]
  cases reached : (k.links others P).frameAt (pageRoot P pgn') (pagePath pgn') with
  | none => rfl
  | some g =>
    refine congrArg some (Bytes.writeByte_ne v fun same => ?_)
    have frame : f = g ∧ offset = offset' := by
      simp only [pagingPagesz] at same bound bound'
      omega
    obtain ⟨rfl, rfl⟩ := frame
    obtain ⟨root, path⟩ :=
      owned.frames.separated _ _ _ _ f (by omega) (by omega) page reached
    exact different (Pd.eq_of_position (congrArg Prod.snd root) path) rfl

/-- The region of symbol `r` covers `off`, and the byte there is `v`. -/
def Machine.Holds (m : Machine ι) (P : ι) (r : BitVec 32) (off : Addr) (v : BitVec 8) : Prop :=
  ∃ slot addr, Libmem.Inside (m.task P).krnl r off addr slot ∧
    byteAt m.links m.mram P (pageOf (addr.setWidth 32)) (offsetOf (addr.setWidth 32)) = some v

/-- A byte that is held is what `__read` delivers, without any change. -/
theorem Machine.Holds.read (driver : Driver) (owned : m.Owned n) (holds : m.Holds P r off v) :
    Libmem.read driver (m.task P).krnl 0 r off = ((m.task P).krnl, some v) := by
  obtain ⟨slot, addr, inside, held⟩ := holds
  rw [Libmem.read, Libmem.target_live inside (VmRg.live_of_lt inside.nonempty)]
  rw [← m.links_task P] at held
  exact pgGetval_present (owned.krnl P) driver held

/-- A call of another process keeps what is held. -/
theorem Machine.Holds.foreign (owned : m.Owned n) (holds : m.Holds P r off v)
    (step : Machine.Step driver m e m') (other : e.proc ≠ P) : m'.Holds P r off v := by
  obtain ⟨slot, addr, inside, held⟩ := holds
  obtain ⟨k, leaves, routine⟩ := step.kernel
  have same : m'.procs P = m.procs P := leaves.other P (Ne.symm other)
  have spares : Spares m.roots e.proc (m.task e.proc).krnl k := by
    rcases routine with rfl | ⟨-, rfl⟩
    · exact Call.kernel_spares (owned.krnl e.proc) e.call
    · exact (Paged.refl _ _ _).spares
  refine ⟨slot, addr, inside.congr (congrArg (fun proc => proc.mm.symrgtbl slot) same), ?_⟩
  rw [leaves.links, leaves.mram, spares.byteAt (Ne.symm other) (offsetOf_lt _), m.links_task]
  exact held

private theorem Machine.Step.write_succeeded (step : Machine.Step driver m e m') {v : BitVec 8}
    {destination : BitVec 32} {offset : Addr} (call : e.call = .write v destination offset)
    (status : (Libmem.write driver (m.task e.proc).krnl 0 destination offset v).2 = 0) :
    e.Succeeded := by
  cases step with
  | call performed =>
    subst call
    cases performed
    exact ⟨none, congrArg (fun status => some (Reply.mk status none)) status⟩
  | wild faulted routine =>
    subst call
    cases faulted

/-- A live symbol keeps its region unless its own `libfree` succeeds. -/
private theorem Machine.Step.slot_kept (step : Machine.Step driver m e m')
    (inRegs : e.call = .free r → e.call.InRegs)
    {slot : Fin 30} (index : symIndex r = some slot) (live : ((m.procs e.proc).mm.symrgtbl slot).Live)
    (freed : e.call = .free r → ¬e.Succeeded) :
    (m'.procs e.proc).mm.symrgtbl slot = (m.procs e.proc).mm.symrgtbl slot := by
  rcases step.regions e.proc with ⟨-, acted⟩ | ⟨-, same⟩
  · by_cases touches : (e.call.action (m.procs e.proc).mm).slot = some slot
    · obtain ⟨reg, call, index'⟩ := Call.action_slot live touches
      obtain rfl := symIndex_injective index index'
      cases step with
      | call performed =>
        subst call
        rcases Call.perform_free performed with rfl | ⟨rfl, rfl⟩
        · exact congrArg (fun mm => mm.symrgtbl slot) (Machine.leaves_put m _).self
        · rcases Libmem.free_cases (m.task _).krnl r with refused | ⟨_, -, -, released⟩
          · rw [refused]
            exact congrArg (fun mm => mm.symrgtbl slot) (Machine.leaves_put m _).self
          · exact absurd ⟨none, by rw [released]⟩ (freed rfl)
      | wild faulted routine =>
        obtain ⟨result, completed⟩ := Call.perform_ok driver (m.task _) (inRegs call)
        rw [completed] at faulted
        cases faulted
    · have unchanged := Regions.act_symrgtbl touches (R := (m.procs e.proc).mm.regions)
      rw [← acted] at unchanged
      exact unchanged
  · exact congrFun (congrArg Regions.symrgtbl same) slot

/-- A call of the process itself keeps what it holds, unless it releases the symbol or writes there. -/
theorem Machine.Holds.own (owned : m.Owned n) (laid : (m'.procs P).mm.regions.Laid)
    (distinct : DistinctBytes (m'.procs P).mm) (holds : m.Holds P r off v)
    (step : Machine.Step driver m e m') (inRegs : e.call = .free r → e.call.InRegs) (self : e.proc = P)
    (freed : e.call = .free r → ¬e.Succeeded)
    (written : ∀ v', e.call = .write v' r off → ¬e.Succeeded) : m'.Holds P r off v := by
  subst self
  obtain ⟨slot, addr, inside, held⟩ := holds
  have live := VmRg.live_of_lt inside.nonempty
  have kept := step.slot_kept inRegs inside.index live freed
  have inside' : Libmem.Inside (m'.task e.proc).krnl r off addr slot := inside.congr kept
  refine ⟨slot, addr, inside', ?_⟩
  obtain ⟨k, leaves, routine⟩ := step.kernel
  rw [← m.links_task e.proc] at held
  rw [leaves.links, leaves.mram]
  rcases routine with rfl | ⟨-, rfl⟩
  · rcases e.call.kernel_cases (owned.krnl e.proc) with
      ⟨-, paged⟩ | ⟨v', destination, offset, k', f, addr', call, stored, located, fetched⟩
    · exact paged.byteAt (offsetOf_lt _) held
    · rw [call, Call.kernel, stored]
      rw [byteAt_storeByte_other fetched.owned (fetched.reached f rfl) (offsetOf_lt _) (offsetOf_lt _) v']
      · exact fetched.paged.byteAt (offsetOf_lt _) held
      · -- the same page and offset would be the same address, so the same symbol and offset
        intro page offsets
        obtain ⟨slot', opened⟩ := (Libmem.target_opened _ destination offset).2 addr' located
        have there : Libmem.Inside (m'.task e.proc).krnl destination offset addr' slot' := by
          refine opened.congr ?_
          have regions := (Libmem.write_same driver (m.task e.proc).krnl destination offset v').regions
          have after : (m'.procs e.proc).mm =
              (Libmem.write driver (m.task e.proc).krnl 0 destination offset v').1.mm := by
            rw [leaves.self, call, Call.kernel]
          change (m'.procs e.proc).mm.symrgtbl slot' = _
          rw [after]
          exact congrFun (congrArg Regions.symrgtbl regions) slot'
        obtain rfl : addr' = addr := by
          by_contra different
          exact distinct addr' addr there.liveAt inside'.liveAt different
            ⟨pdOf_pageOf_injective page, BitVec.eq_of_toNat_eq offsets⟩
        obtain ⟨rfl, rfl⟩ := inside'.unique laid there
        exact written v' call (step.write_succeeded call (by rw [stored]))
  · exact held

private theorem Machine.Step.write_status (step : Machine.Step driver m e m')
    (call : e.call = .write v r off) (succeeded : e.Succeeded) :
    m.Leaves e.proc (Libmem.write driver (m.task e.proc).krnl 0 r off v).1 m' ∧
      (Libmem.write driver (m.task e.proc).krnl 0 r off v).2 = 0 := by
  obtain ⟨data, reply⟩ := succeeded
  cases step with
  | @call P _ t _ performed =>
    have leaves := Machine.leaves_put (t := t) m P
    subst call
    cases performed
    exact ⟨leaves, congrArg Reply.status (Option.some.inj reply)⟩
  | wild faulted routine => cases reply

/-- A successful write holds its byte. -/
theorem Machine.Step.write_holds (owned : m.Owned n) (step : Machine.Step driver m e m')
    (call : e.call = .write v r off) (succeeded : e.Succeeded) : m'.Holds e.proc r off v := by
  obtain ⟨leaves, status⟩ := step.write_status call succeeded
  rcases Libmem.write_cases driver (owned.krnl e.proc) r off v with
    ⟨k, failed, -⟩ | ⟨k, f, addr, stored, located, fetched⟩
  · rw [failed] at status
    contradiction
  · obtain ⟨slot, opened⟩ := (Libmem.target_opened _ r off).2 addr located
    have regions := (Libmem.write_same driver (m.task e.proc).krnl r off v).regions
    rw [stored] at leaves regions
    refine ⟨slot, addr, opened.congr ?_, ?_⟩
    · change (m'.procs e.proc).mm.symrgtbl slot = _
      rw [leaves.self]
      exact congrFun (congrArg Regions.symrgtbl regions) slot
    · rw [leaves.links, leaves.mram]
      exact byteAt_storeByte_same fetched.owned (fetched.reached f rfl) (offsetOf_lt _) v

/-- A successful read holds what it delivered. -/
theorem Machine.Step.read_holds (owned : m.Owned n) (step : Machine.Step driver m e m')
    (call : e.call = .read r off) {status : Int} {b : BitVec 32}
    (reply : e.reply = some ⟨status, some b⟩) :
    ∃ byte : BitVec 8, byte.signExtend 32 = b ∧ m'.Holds e.proc r off byte := by
  have reads : m.Leaves e.proc (Libmem.read driver (m.task e.proc).krnl 0 r off).1 m' ∧
      (Libmem.read driver (m.task e.proc).krnl 0 r off).2.map (fun byte => byte.signExtend 32) =
        some b := by
    cases step with
    | @call P _ t _ performed =>
      have leaves := Machine.leaves_put (t := t) m P
      subst call
      cases performed
      exact ⟨leaves, congrArg Reply.data (Option.some.inj reply)⟩
    | wild faulted routine => cases reply
  obtain ⟨leaves, delivered⟩ := reads
  obtain ⟨byte, data, value⟩ := Option.map_eq_some_iff.mp delivered
  refine ⟨byte, value, ?_⟩
  have regions := (Libmem.read_same driver (m.task e.proc).krnl r off).regions
  have opened := (Libmem.target_opened (m.task e.proc).krnl r off).2
  have before := (Libmem.target_paged (owned.krnl e.proc) r off).1
  rw [Libmem.read] at leaves data regions
  generalize Libmem.target (m.task e.proc).krnl 0 r off = result at *
  rcases result with ⟨k, _ | addr⟩
  · cases data
  · obtain ⟨slot, inside⟩ := opened addr rfl
    refine ⟨slot, addr, inside.congr ?_, ?_⟩
    · change (m'.procs e.proc).mm.symrgtbl slot = _
      rw [leaves.self]
      exact congrFun (congrArg Regions.symrgtbl regions) slot
    · rw [leaves.links, leaves.mram]
      exact (pgGetval_fetched before driver (addr.setWidth 32)).2.2 byte data

end SimpleOS.Model
