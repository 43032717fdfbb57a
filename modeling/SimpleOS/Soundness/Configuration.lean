import SimpleOS.Lib.Decimal
import SimpleOS.Model.ReadConfig

/-! # Configurations read back

A configuration is written down with any blanks between its words, with or without the line of five memory
sizes. `read_config` looks for that line by asking for two numbers, so without it the first process line must
not begin with two numbers: its second word is the name of the process.
-/

namespace SimpleOS.Model

open Lib

/-- A name without white space that `path` has room for. -/
structure ProcName where
  chars : List Char
  nonempty : chars ≠ []
  word : ∀ c ∈ chars, isSpace c = false
  noNul : ∀ c ∈ chars, c ≠ '\x00'
  short : chars.length ≤ 88

/-- Behind an optional sign there is a digit. -/
def ProcName.LooksNumeric (name : ProcName) : Prop := ∃ c ∈ (scanSign name.chars).2.head?, c.isDigit

/-- The line of a process. -/
structure ProcLine where
  startTime : BitVec 64
  beforeName : Gap
  name : ProcName
  beforePrio : Gap
  prio : BitVec 64

def ProcLine.text (l : ProcLine) : List Char :=
  decimal l.startTime.toNat ++ (l.beforeName.chars ++ (l.name.chars ++ (l.beforePrio.chars ++
    (decimal l.prio.toNat ++ ['\n']))))

def ProcLine.entry (l : ProcLine) : LdArgs := ⟨procDir ++ l.name.chars, l.startTime, l.prio⟩

/-- The line of the memory sizes. -/
structure MemLine where
  ramsz : ℕ
  swpsz : List (Gap × ℕ)
  four : swpsz.length = 4

def MemLine.text (m : MemLine) : List Char :=
  decimal m.ramsz ++ (m.swpsz.flatMap (fun size => size.1.chars ++ decimal size.2) ++ ['\n'])

/-- A configuration as it is written down. -/
structure ConfigText where
  timeSlot : BitVec 32
  beforeCpus : Gap
  numCpus : BitVec 32
  beforeProcesses : Gap
  mem : Option MemLine
  procs : List ProcLine

/-- The lines behind the first. -/
def ConfigText.lines (t : ConfigText) : List Char :=
  (t.mem.map MemLine.text).getD [] ++ t.procs.flatMap ProcLine.text

def ConfigText.text (t : ConfigText) : List Char :=
  intDecimal t.timeSlot.toInt ++ (t.beforeCpus.chars ++ (intDecimal t.numCpus.toInt ++ (t.beforeProcesses.chars ++
    (decimal t.procs.length ++ '\n' :: t.lines))))

/-- The data of a configuration, with the memory sizes that `MM_FIXED_MEMSZ` fixes. -/
def ConfigText.config (t : ConfigText) : OsConfig where
  timeSlot := t.timeSlot
  numCpus := t.numCpus
  numProcesses := BitVec.ofNat 32 t.procs.length
  memramsz := 0x100000
  memswpsz i := if i.val = 0 then 0x1000000 else 0
  ldProcesses := t.procs.map ProcLine.entry

section Lines

variable {rest : List Char}

private theorem readProcess_text (prio : BitVec 64) (l : ProcLine) :
    readProcess prio (l.text ++ rest) = some (l.entry, skipSpace rest) := by
  have room : (procDir ++ l.name.chars).length < 100 := by
    have short := l.name.short
    simp only [List.length_append, show procDir.length = 11 from rfl]
    omega
  have fits : l.name.chars.length < 100 := by
    have short := l.name.short
    omega
  have stop : StopsAt Char.isDigit ('\n' :: rest) := stopsAt_cons.mpr rfl
  have startTime := scanULong_decimal l.startTime.isLt (l.beforeName.stopsAt
    (l.name.chars ++ (l.beforePrio.chars ++ (decimal l.prio.toNat ++ '\n' :: rest))) rfl rfl)
  have proc := scanWord_word l.name.nonempty l.name.word
    (l.beforePrio.stopsAt (decimal l.prio.toNat ++ '\n' :: rest) rfl rfl)
  have last := scanULong_decimal l.prio.isLt stop
  simp only [ProcLine.text, List.append_assoc, List.cons_append, List.nil_append]
  simp only [readProcess, startTime, scanWord_gap, proc, cString_of_noNul l.name.noNul, if_pos (And.intro fits room),
    scanULong_gap, last, BitVec.ofNat_toNat, BitVec.setWidth_eq, skipSpace_newline, ProcLine.entry]

private theorem skipSpace_procs (procs : List ProcLine) :
    skipSpace (procs.flatMap ProcLine.text) = procs.flatMap ProcLine.text := by
  cases procs with
  | nil => rfl
  | cons l procs =>
    apply skipSpace_of_stopsAt
    simp only [List.flatMap_cons, ProcLine.text, List.append_assoc]
    exact stopsAt_decimal _

/-- The loop reads the lines, whatever rounds are left then. -/
theorem readProcesses_procs (prio : ℕ → BitVec 64) (i n : ℕ) (procs : List ProcLine) :
    readProcesses prio i (procs.length + n) (procs.flatMap ProcLine.text) =
      (readProcesses prio (i + procs.length) n []).map (procs.map ProcLine.entry ++ ·) := by
  induction procs generalizing i with
  | nil => simp
  | cons l procs ih =>
    have count : (l :: procs).length + n = procs.length + n + 1 := by
      rw [List.length_cons]
      omega
    have index : i + (procs.length + 1) = i + 1 + procs.length := by omega
    rw [count, readProcesses, List.flatMap_cons, readProcess_text, skipSpace_procs]
    simp only [Option.bind_eq_bind, Option.bind_some, ih, List.length_cons, index]
    cases readProcesses prio (i + 1 + procs.length) n [] <;> simp

private theorem readProcesses_length {prio : ℕ → BitVec 64} {i n : ℕ} {input : List Char} {entries : List LdArgs}
    (read : readProcesses prio i n input = some entries) : entries.length = n := by
  induction n generalizing i input entries with
  | zero =>
    cases read
    rfl
  | succ n ih =>
    simp only [readProcesses, Option.bind_eq_bind, Option.bind_eq_some_iff, Option.pure_def, Option.some.injEq] at read
    obtain ⟨_, -, _, others, rfl⟩ := read
    rw [List.length_cons, ih others]

end Lines

section Memory

variable {rest : List Char}

/-- When two numbers are read, the rest of their line goes as well. -/
private theorem skipMemorySizes_of_two {input input' input'' : List Char} {first second : BitVec 32}
    (one : scanInt input = (some first, input')) (two : scanInt input' = (some second, input'')) :
    skipMemorySizes input = skipLine input'' := by
  simp only [skipMemorySizes, scanEach, one, two, List.length_cons, List.length_nil, if_true]

private theorem skipMemorySizes_memLine (m : MemLine) : skipMemorySizes (m.text ++ rest) = rest := by
  obtain ⟨ramsz, swpsz, four⟩ := m
  obtain ⟨size, swpsz, rfl⟩ : ∃ size others, swpsz = size :: others :=
    List.exists_cons_of_length_eq_add_one four
  have sizes : ∀ c ∈ swpsz.flatMap fun size => size.1.chars ++ decimal size.2, c ≠ '\n' := by
    intro c member
    obtain ⟨size, -, member⟩ := List.mem_flatMap.mp member
    rcases List.mem_append.mp member with blank | digit
    · exact size.1.noNewline c blank
    · exact decimal_noNewline c digit
  have stops : StopsAt Char.isDigit ((swpsz.flatMap fun size => size.1.chars ++ decimal size.2) ++ '\n' :: rest) := by
    cases swpsz with
    | nil => exact stopsAt_cons.mpr rfl
    | cons size swpsz =>
      simp only [List.flatMap_cons, List.append_assoc]
      exact size.1.stopsAt _ rfl rfl
  obtain ⟨first, one⟩ := scanInt_some ramsz (size.1.stopsAt (decimal size.2 ++
    ((swpsz.flatMap fun size => size.1.chars ++ decimal size.2) ++ '\n' :: rest)) rfl rfl)
  obtain ⟨second, two⟩ := scanInt_some size.2 stops
  simp only [MemLine.text, List.flatMap_cons, List.append_assoc, List.cons_append, List.nil_append]
  rw [skipMemorySizes_of_two one ((scanInt_gap size.1).trans two), skipLine_line sizes]

private theorem scanSign_name (name : ProcName) :
    scanSign (skipSpace (name.chars ++ rest)) = ((scanSign name.chars).1, (scanSign name.chars).2 ++ rest) := by
  have front : StopsAt isSpace (name.chars ++ rest) := by
    cases shape : name.chars with
    | nil => exact absurd shape name.nonempty
    | cons c chars => exact stopsAt_cons.mpr (name.word c (by simp [shape]))
  rw [skipSpace_of_stopsAt front, scanSign_append name.nonempty]

private theorem scanInt_numeric {name : ProcName} (numeric : name.LooksNumeric) (rest : List Char) :
    ∃ value, scanInt (name.chars ++ rest) =
      (some value, ((scanSign name.chars).2 ++ rest).dropWhile Char.isDigit) := by
  obtain ⟨c, first, digit⟩ := numeric
  obtain ⟨chars, shape⟩ : ∃ chars, (scanSign name.chars).2 = c :: chars := List.head?_eq_some_iff.mp first
  have taken : ((scanSign name.chars).2 ++ rest).takeWhile Char.isDigit =
      c :: (chars ++ rest).takeWhile Char.isDigit := by
    rw [shape, List.cons_append, List.takeWhile_cons_of_pos digit]
  refine ⟨(strtol (scanSign name.chars).1 (c :: (chars ++ rest).takeWhile Char.isDigit)).setWidth 32, ?_⟩
  simp only [scanInt, scanSign_name, taken]

private theorem scanInt_word {name : ProcName} (word : ¬name.LooksNumeric) (stop : StopsAt Char.isDigit rest) :
    (scanInt (name.chars ++ rest)).1 = none := by
  have stops : StopsAt Char.isDigit ((scanSign name.chars).2 ++ rest) := by
    cases shape : (scanSign name.chars).2 with
    | nil => exact stop
    | cons c chars =>
      rw [List.cons_append, stopsAt_cons, Bool.eq_false_iff]
      exact fun digit => word ⟨c, by simp [shape], digit⟩
  simp only [scanInt, scanSign_name, takeWhile_of_stopsAt stops]

private theorem ProcLine.text_append (l : ProcLine) : l.text ++ rest =
    decimal l.startTime.toNat ++ (l.beforeName.chars ++ (l.name.chars ++ ((l.beforePrio.chars ++
      decimal l.prio.toNat) ++ '\n' :: rest))) := by
  simp only [ProcLine.text, List.append_assoc, List.cons_append, List.nil_append]

/-- A process line is taken for memory sizes when its name looks like a number. -/
private theorem skipMemorySizes_numeric {l : ProcLine} (numeric : l.name.LooksNumeric) :
    skipMemorySizes (l.text ++ rest) = rest := by
  obtain ⟨first, one⟩ := scanInt_some l.startTime.toNat (l.beforeName.stopsAt
    (l.name.chars ++ ((l.beforePrio.chars ++ decimal l.prio.toNat) ++ '\n' :: rest)) rfl rfl)
  obtain ⟨second, two⟩ := scanInt_numeric numeric ((l.beforePrio.chars ++ decimal l.prio.toNat) ++ '\n' :: rest)
  have inside : ∀ c ∈ (scanSign l.name.chars).2 ++ (l.beforePrio.chars ++ decimal l.prio.toNat), c ≠ '\n' := by
    intro c member
    rcases List.mem_append.mp member with name | member
    · rintro rfl
      cases l.name.word _ (mem_of_mem_scanSign name)
    · rcases List.mem_append.mp member with blank | digit
      · exact l.beforePrio.noNewline c blank
      · exact decimal_noNewline c digit
  rw [ProcLine.text_append, skipMemorySizes_of_two one ((scanInt_gap l.beforeName).trans two),
    skipLine_dropWhile rfl, ← List.append_assoc, skipLine_line inside]

/-- No other process line is. -/
private theorem skipMemorySizes_word {l : ProcLine} (word : ¬l.name.LooksNumeric) :
    skipMemorySizes (l.text ++ rest) = l.text ++ rest := by
  obtain ⟨first, one⟩ := scanInt_some l.startTime.toNat (l.beforeName.stopsAt
    (l.name.chars ++ ((l.beforePrio.chars ++ decimal l.prio.toNat) ++ '\n' :: rest)) rfl rfl)
  have stop : StopsAt Char.isDigit ((l.beforePrio.chars ++ decimal l.prio.toNat) ++ '\n' :: rest) := by
    rw [List.append_assoc]
    exact l.beforePrio.stopsAt _ rfl rfl
  have two := scanInt_word word stop
  rw [← scanInt_gap l.beforeName] at two
  have sizes : (scanEach scanInt 2 (l.text ++ rest)).1.length = 1 := by
    rw [ProcLine.text_append]
    simp only [scanEach, one]
    split
    · rfl
    · simp_all
  simp only [skipMemorySizes, sizes, if_neg (by decide : ¬1 = 2)]

end Memory

section Config

variable (prio : ℕ → BitVec 64) (t : ConfigText)

theorem skipMemorySizes_lines (fits : t.mem.isSome ∨ ∀ l ∈ t.procs.head?, ¬l.name.LooksNumeric) :
    skipMemorySizes (skipSpace t.lines) = t.procs.flatMap ProcLine.text := by
  rcases absent : t.mem with _ | m
  · have lines : t.lines = t.procs.flatMap ProcLine.text := by simp [ConfigText.lines, absent]
    rw [lines, skipSpace_procs]
    cases shape : t.procs with
    | nil => rfl
    | cons l procs =>
      have word : ¬l.name.LooksNumeric := by
        rcases fits with given | word
        · simp [absent] at given
        · exact word l (by simp [shape])
      exact skipMemorySizes_word word
  · have lines : t.lines = m.text ++ t.procs.flatMap ProcLine.text := by simp [ConfigText.lines, absent]
    have front : StopsAt isSpace (m.text ++ t.procs.flatMap ProcLine.text) := by
      rw [MemLine.text, List.append_assoc]
      exact stopsAt_decimal _
    rw [lines, skipSpace_of_stopsAt front, skipMemorySizes_memLine]

theorem readConfig_text : ∃ numProcesses : BitVec 32,
    (t.procs.length < 2 ^ 31 → numProcesses = BitVec.ofNat 32 t.procs.length) ∧
      readConfig prio t.text =
        (readProcesses prio 0 numProcesses.toInt.toNat (skipMemorySizes (skipSpace t.lines))).map fun entries =>
          { t.config with numProcesses, ldProcesses := entries } := by
  have timeSlot := scanInt_toInt t.timeSlot (t.beforeCpus.stopsAt (intDecimal t.numCpus.toInt ++
    (t.beforeProcesses.chars ++ (decimal t.procs.length ++ '\n' :: t.lines))) rfl rfl)
  have numCpus := scanInt_toInt t.numCpus
    (t.beforeProcesses.stopsAt (decimal t.procs.length ++ '\n' :: t.lines) rfl rfl)
  have stop : StopsAt Char.isDigit ('\n' :: t.lines) := stopsAt_cons.mpr rfl
  obtain ⟨numProcesses, last⟩ := scanInt_some t.procs.length stop
  refine ⟨numProcesses, ?_, ?_⟩
  · intro small
    rw [scanInt_decimal small stop] at last
    exact (Option.some.inj (Prod.mk.inj last).1).symm
  · have header : scanEach scanInt 3 t.text = ([t.timeSlot, t.numCpus, numProcesses], '\n' :: t.lines) := by
      simp only [scanEach, ConfigText.text, timeSlot, scanInt_gap, numCpus, last]
    simp only [readConfig, header]
    rw [Option.map_eq_bind]
    rfl

/-- A configuration is read back exactly when its processes can be counted in an `int` and no process line is
taken for the memory sizes. -/
theorem read_config_iff : readConfig prio t.text = some t.config ↔
    t.procs.length < 2 ^ 31 ∧ (t.mem.isSome ∨ ∀ l ∈ t.procs.head?, ¬l.name.LooksNumeric) := by
  obtain ⟨numProcesses, count, read⟩ := readConfig_text prio t
  rw [read]
  refine ⟨?_, ?_⟩
  · intro same
    obtain ⟨entries, processes, same⟩ := Option.map_eq_some_iff.mp same
    have all : entries = t.procs.map ProcLine.entry := congrArg OsConfig.ldProcesses same
    have length : t.procs.length = numProcesses.toInt.toNat := by
      rw [← readProcesses_length processes, all, List.length_map]
    have small : t.procs.length < 2 ^ 31 := by
      have bound : numProcesses.toInt < 2 ^ 31 := BitVec.toInt_lt
      omega
    refine ⟨small, ?_⟩
    by_contra unfit
    rw [not_or] at unfit
    obtain ⟨absent, numeric⟩ := unfit
    obtain ⟨l, procs, shape, numeric⟩ : ∃ l procs, t.procs = l :: procs ∧ l.name.LooksNumeric := by
      cases shape : t.procs with
      | nil => simp [shape] at numeric
      | cons l procs => exact ⟨l, procs, rfl, by simpa [shape] using numeric⟩
    have lines : t.lines = (l :: procs).flatMap ProcLine.text := by
      simp [ConfigText.lines, Option.not_isSome_iff_eq_none.mp absent, shape]
    -- the first line is gone, so the last round is at the end of the file
    rw [lines, skipSpace_procs, List.flatMap_cons, skipMemorySizes_numeric numeric, ← length, shape,
      List.length_cons, readProcesses_procs] at processes
    cases processes
  · rintro ⟨small, fits⟩
    have value : (BitVec.ofNat 32 t.procs.length).toInt.toNat = t.procs.length := by
      rw [BitVec.toInt_ofNat', Int.bmod_eq_of_le (by omega) (by omega), Int.toNat_natCast]
    have all := readProcesses_procs prio 0 0 t.procs
    rw [skipMemorySizes_lines t fits, count small, value, ← Nat.add_zero t.procs.length, all]
    simp only [readProcesses, Option.map_some, List.append_nil]
    rfl

end Config

/-- `2 1 1` and `0 1abc 4` without memory sizes. -/
def numericName : ConfigText where
  timeSlot := 2
  beforeCpus := .single
  numCpus := 1
  beforeProcesses := .single
  mem := none
  procs := [{
    startTime := 0
    beforeName := .single
    name := ⟨['1', 'a', 'b', 'c'], by simp, by simp [isSpace], by simp, by simp⟩
    beforePrio := .single
    prio := 4 }]

theorem read_config_numericName : readConfig (fun _ => 0) numericName.text ≠ some numericName.config := by
  have lost : readConfig (fun _ => 0) numericName.text = none := by decide +kernel
  rw [lost]
  intro same
  cases same

end SimpleOS.Model
