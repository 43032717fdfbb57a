import SimpleOS.Lib.Decimal
import SimpleOS.Model.Loader

/-! # Programs read back

A program is written down with a header line and one instruction a line, with any blanks between the words.
`load` reads most of it word by word and the arguments of `syscall` by the line, and every instruction leaves
the stream in front of the next line or of white space before it.
-/

namespace SimpleOS.Model

open Lib

/-- The name of an opcode. -/
def opcodeName : Opcode → List Char
  | .calc => ['c', 'a', 'l', 'c']
  | .alloc => ['a', 'l', 'l', 'o', 'c']
  | .free => ['f', 'r', 'e', 'e']
  | .read => ['r', 'e', 'a', 'd']
  | .write => ['w', 'r', 'i', 't', 'e']
  | .syscall => ['s', 'y', 's', 'c', 'a', 'l', 'l']

/-- The line of an instruction. -/
structure InstLine where
  opcode : Opcode
  args : List (Gap × Addr)
  count : args.length = argCount opcode

def InstLine.argText (l : InstLine) : List Char :=
  l.args.flatMap fun arg => arg.1.chars ++ decimal arg.2.toNat

def InstLine.text (l : InstLine) : List Char := opcodeName l.opcode ++ (l.argText ++ ['\n'])

/-- `fgets` reads the arguments of a `syscall` at one go. -/
def InstLine.Fits (l : InstLine) : Prop := l.opcode = .syscall → l.argText.length ≤ 199

/-- A process file. -/
structure ProcText where
  priority : BitVec 32
  beforeSize : Gap
  lines : List InstLine

def ProcText.text (t : ProcText) : List Char :=
  decimal t.priority.toNat ++ (t.beforeSize.chars ++ (decimal t.lines.length ++ '\n' :: t.lines.flatMap InstLine.text))

/-- An instruction has the opcode and the arguments of a line. -/
structure InstLine.Holds (l : InstLine) (inst : Inst) : Prop where
  opcode : inst.opcode = l.opcode
  args : [inst.arg0, inst.arg1, inst.arg2, inst.arg3].take l.args.length = l.args.map Prod.snd

/-- What `load` has to make of a process file. -/
def ProcText.Loads (t : ProcText) (heap : LoadHeap) : Prop :=
  ∃ program, load heap t.text = some program ∧ program.priority = t.priority ∧
    ∀ pid level, (loadProc heap.toMalloc pid program.text level).pc = 0 ∧
      List.Forall₂ InstLine.Holds t.lines (loadProc heap.toMalloc pid program.text level).text

section Names

@[simp] theorem getOpcode_opcodeName (opcode : Opcode) : getOpcode (opcodeName opcode) = some opcode := by
  cases opcode <;> rfl

private theorem opcodeName_word (opcode : Opcode) :
    opcodeName opcode ≠ [] ∧ (∀ c ∈ opcodeName opcode, isSpace c = false) ∧
      cString (opcodeName opcode) = opcodeName opcode ∧ (opcodeName opcode).length < 10 := by
  cases opcode <;> simp [opcodeName, isSpace, cString]

private theorem argCount_le (opcode : Opcode) : argCount opcode ≤ 4 := by cases opcode <;> decide

end Names

section Lines

variable {rest : List Char} {l : InstLine}

theorem skipSpace_lines (lines : List InstLine) :
    skipSpace (lines.flatMap InstLine.text) = lines.flatMap InstLine.text := by
  cases lines with
  | nil => rfl
  | cons l lines =>
    obtain ⟨opcode, args, count⟩ := l
    cases opcode <;> rfl

/-- The arguments end the name in front of them, and so does the end of the line. -/
private theorem InstLine.stopsAt_argText (l : InstLine) {p : Char → Bool} (blank : p ' ' = false) (tab : p '\t' = false)
    (newline : p '\n' = false) : StopsAt p (l.argText ++ '\n' :: rest) := by
  rw [argText]
  cases l.args with
  | nil => exact stopsAt_cons.mpr newline
  | cons arg args =>
    rw [List.flatMap_cons, List.append_assoc, List.append_assoc]
    exact arg.1.stopsAt _ blank tab

private theorem InstLine.forall_argText (l : InstLine) {p : Char → Prop} (blank : p ' ') (tab : p '\t')
    (digit : ∀ c : Char, c.isDigit → p c) : ∀ c ∈ l.argText, p c := by
  intro c member
  obtain ⟨arg, -, member⟩ := List.mem_flatMap.mp member
  rcases List.mem_append.mp member with member | member
  · rcases arg.1.blank c member with rfl | rfl
    · exact blank
    · exact tab
  · exact digit c (isDigit_of_mem_decimal member)

/-- The conversions read back the arguments, in front of anything but a digit. -/
private theorem scanULongs_argText (l : InstLine) (stop : StopsAt Char.isDigit rest) :
    scanULongs (argCount l.opcode) (l.argText ++ rest) = (l.args.map Prod.snd, rest) := by
  rw [scanULongs_eq, ← l.count]
  refine scanEach_flatMap ?_ ?_ l.args stop
  · intro arg rest stop
    rw [List.append_assoc, scanULong_gap, scanULong_decimal arg.2.isLt stop, BitVec.ofNat_toNat, BitVec.setWidth_eq]
  · intro arg rest
    rw [List.append_assoc]
    exact arg.1.stopsAt _ rfl rfl

/-- The opcode is read from any white space before its line. -/
private theorem scanOpcode_line {s : Scanner} (input : skipSpace s.input = l.text ++ rest) :
    scanOpcode s = some (l.opcode,
      { s with input := l.argText ++ '\n' :: rest, opcode := some (opcodeName l.opcode) }) := by
  obtain ⟨nonempty, inside, terminated, short⟩ := opcodeName_word l.opcode
  have word : scanWord s.input = (some (opcodeName l.opcode), l.argText ++ '\n' :: rest) := by
    rw [← scanWord_skipSpace, input, InstLine.text]
    simp only [List.append_assoc, List.cons_append, List.nil_append]
    exact scanWord_word nonempty inside (l.stopsAt_argText rfl rfl rfl)
  simp [scanOpcode, word, terminated, short]

private theorem scanArgs_words {s : Scanner} (input : s.input = l.argText ++ '\n' :: rest) (calc' : l.opcode ≠ .calc)
    (words : l.opcode ≠ .syscall) :
    scanArgs l.opcode s = some (l.args.map Prod.snd, { s with input := skipSpace rest }) := by
  have stop : StopsAt Char.isDigit ('\n' :: rest) := stopsAt_cons.mpr rfl
  have given := scanULongs_argText l stop
  have all : (l.args.map Prod.snd).length = argCount l.opcode := by rw [List.length_map, l.count]
  rw [← input] at given
  unfold scanArgs
  split
  · contradiction
  · contradiction
  · simp only [given, all, if_true, skipSpace_newline]

/-- The buffer holds the whole rest of the line, with its newline if there is room. -/
private theorem scanArgs_syscall {s : Scanner} (input : s.input = l.argText ++ '\n' :: rest)
    (syscall : l.opcode = .syscall) (fits : l.Fits) :
    ∃ s', scanArgs l.opcode s = some (l.args.map Prod.snd, s') ∧ skipSpace s'.input = skipSpace rest := by
  have noNewline : ∀ c ∈ l.argText, c ≠ '\n' := by
    refine l.forall_argText (by decide) (by decide) ?_
    rintro _ digit rfl
    cases digit
  have noNul : ∀ c ∈ l.argText, c ≠ '\x00' := by
    refine l.forall_argText (by decide) (by decide) ?_
    rintro _ digit rfl
    cases digit
  have short : l.argText.length < 200 := Nat.lt_succ_of_le (fits syscall)
  have given (rest : List Char) (stop : StopsAt Char.isDigit rest) := scanULongs_argText l stop
  rw [syscall] at given ⊢
  have line := @fgets_line l.argText rest 200 noNewline short
  rcases line with read | read
  · have all : cString (l.argText ++ ['\n']) = l.argText ++ ['\n'] := by
      apply cString_of_noNul
      simpa [or_imp, forall_and] using noNul
    have values := given ['\n'] (stopsAt_cons.mpr rfl)
    refine ⟨{ s with input := rest, buf := some (l.argText ++ ['\n']) }, ?_, rfl⟩
    simp only [argCount] at values
    simp [scanArgs, input, read, all, values]
  · have values := given [] stopsAt_nil
    refine ⟨{ s with input := '\n' :: rest, buf := some l.argText }, ?_, skipSpace_newline⟩
    simp only [argCount, List.append_nil] at values
    simp [scanArgs, input, read, cString_of_noNul noNul, values]

/-- After the arguments the stream is in front of the next line or of white space before it. -/
private theorem scanArgs_line {s : Scanner} (input : s.input = l.argText ++ '\n' :: rest) (fits : l.Fits) :
    ∃ s', scanArgs l.opcode s = some (l.args.map Prod.snd, s') ∧ skipSpace s'.input = skipSpace rest := by
  by_cases syscall : l.opcode = .syscall
  · exact scanArgs_syscall input syscall fits
  by_cases calc' : l.opcode = .calc
  · have none : l.args = [] := by
      rw [← List.length_eq_zero_iff, l.count, calc']
      rfl
    have line : l.argText = [] := by rw [InstLine.argText, none, List.flatMap_nil]
    refine ⟨s, ?_, ?_⟩
    · rw [calc', none]
      rfl
    · rw [input, line, List.nil_append, skipSpace_newline]
  · exact ⟨_, scanArgs_words input calc' syscall, skipSpace_idem rest⟩

end Lines

section Programs

private theorem Inst.fill_holds {l : InstLine} (words : Fin 4 → Addr) :
    l.Holds (Inst.fill l.opcode (l.args.map Prod.snd) words) := by
  obtain ⟨opcode, args, count⟩ := l
  have few : args.length ≤ 4 := count ▸ argCount_le opcode
  refine ⟨rfl, ?_⟩
  rcases args with _ | ⟨a, _ | ⟨b, _ | ⟨c, _ | ⟨d, _ | ⟨e, args⟩⟩⟩⟩⟩
  · rfl
  · rfl
  · rfl
  · rfl
  · rfl
  · simp only [List.length_cons] at few
    omega

/-- The loop reads the lines one after the other. -/
theorem loadText_lines {lines : List InstLine} (words : ℕ → Fin 4 → Addr) (i : ℕ) {s : Scanner}
    (fits : ∀ l ∈ lines, l.Fits) (input : skipSpace s.input = lines.flatMap InstLine.text) :
    ∃ text, loadText words i lines.length s = some text ∧ List.Forall₂ InstLine.Holds lines text := by
  induction lines generalizing i s with
  | nil => exact ⟨[], rfl, .nil⟩
  | cons l lines ih =>
    have input : skipSpace s.input = l.text ++ lines.flatMap InstLine.text := by rw [input, List.flatMap_cons]
    have opcode := scanOpcode_line input
    obtain ⟨s', args, front⟩ := scanArgs_line (s := { s with
      input := l.argText ++ '\n' :: lines.flatMap InstLine.text
      opcode := some (opcodeName l.opcode) }) rfl (fits l (by simp))
    have front : skipSpace s'.input = lines.flatMap InstLine.text := by rw [front, skipSpace_lines]
    obtain ⟨text, rest, holds⟩ := ih (i + 1) (fun other member => fits other (by simp [member])) front
    refine ⟨Inst.fill l.opcode (l.args.map Prod.snd) (words i) :: text, ?_, .cons (Inst.fill_holds _) holds⟩
    simp [loadText, opcode, args, rest]

/-- The header gives the priority, and the number of lines as a `uint32_t`. -/
theorem load_text (heap : LoadHeap) (t : ProcText) (small : t.lines.length < 2 ^ 64) :
    load heap t.text = (loadText heap.text 0 (t.lines.length % 2 ^ 32)
      ⟨'\n' :: t.lines.flatMap InstLine.text, none, none⟩).map (Program.mk t.priority) := by
  have priority := scanULong_decimal (n := t.priority.toNat) (by omega)
    (t.beforeSize.stopsAt (decimal t.lines.length ++ '\n' :: t.lines.flatMap InstLine.text) rfl rfl)
  have stop : StopsAt Char.isDigit ('\n' :: t.lines.flatMap InstLine.text) := stopsAt_cons.mpr rfl
  have size := scanULong_decimal small stop
  have header : scanULongs 2 t.text =
      ([BitVec.ofNat 64 t.priority.toNat, BitVec.ofNat 64 t.lines.length],
        '\n' :: t.lines.flatMap InstLine.text) := by
    simp only [scanULongs_eq, scanEach, ProcText.text, priority, scanULong_gap, size]
  have first : (BitVec.ofNat 64 t.priority.toNat).setWidth 32 = t.priority := by
    rw [BitVec.setWidth_ofNat_of_le (by omega), BitVec.ofNat_toNat, BitVec.setWidth_eq]
  have second : ((BitVec.ofNat 64 t.lines.length).setWidth 32).toNat = t.lines.length % 2 ^ 32 := by
    rw [BitVec.setWidth_ofNat_of_le (by omega), BitVec.toNat_ofNat]
  rw [← first, ← second, Option.map_eq_bind]
  simp only [load, header]
  rfl

/-- Loading a process file gives its priority and its instructions, unless the file has more lines than the
size can count or a `syscall` has more characters behind it than the buffer. -/
theorem load_round_trip (heap : LoadHeap) (t : ProcText) (few : t.lines.length < 2 ^ 32) (fits : ∀ l ∈ t.lines, l.Fits) :
    t.Loads heap := by
  have input : skipSpace ('\n' :: t.lines.flatMap InstLine.text) = t.lines.flatMap InstLine.text := by
    rw [skipSpace_newline, skipSpace_lines]
  obtain ⟨text, lines, holds⟩ := loadText_lines heap.text 0
    (s := ⟨'\n' :: t.lines.flatMap InstLine.text, none, none⟩) fits input
  refine ⟨⟨t.priority, text⟩, ?_, rfl, fun _ _ => ⟨rfl, holds⟩⟩
  rw [load_text heap t (by omega), Nat.mod_eq_of_lt few, lines, Option.map_some]

/-- With single blanks every line fits. -/
private theorem InstLine.fits_of_single {l : InstLine} (single : ∀ arg ∈ l.args, arg.1.chars.length = 1) : l.Fits := by
  intro syscall
  have width : ∀ arg ∈ l.args, (arg.1.chars ++ decimal arg.2.toNat).length ≤ 21 := by
    intro arg member
    have digits : (decimal arg.2.toNat).length ≤ 20 := by
      rw [decimal, Nat.length_toDigits_le_iff (by omega) (by omega)]
      omega
    rw [List.length_append, single arg member]
    omega
  have total : l.argText.length ≤ l.args.length * 21 := length_flatMap_le width
  have four := l.count
  rw [syscall] at four
  simp only [argCount] at four
  omega

/-- `1 2`, `syscall 101 1 2 3` and `alloc 300 0`. -/
def twoLines : ProcText where
  priority := 1
  beforeSize := .single
  lines := [⟨.syscall, [(.single, 101), (.single, 1), (.single, 2), (.single, 3)], rfl⟩,
    ⟨.alloc, [(.single, 300), (.single, 0)], rfl⟩]

theorem load_round_trip_twoLines : twoLines.Loads ⟨⟨fun _ => 0, [], fun _ => 0⟩, 0, 0, fun _ _ => 0⟩ := by
  refine load_round_trip _ twoLines (by decide) ?_
  intro l member
  apply InstLine.fits_of_single
  simp only [twoLines, List.mem_cons, List.not_mem_nil, or_false] at member
  rcases member with rfl | rfl
  · decide
  · decide

/-- As many `calc` as the size cannot count. -/
def manyLines : ProcText where
  priority := 1
  beforeSize := .single
  lines := List.replicate (2 ^ 32) ⟨.calc, [], rfl⟩

/-- `syscall 5 0 0 0` with the 5 behind the first 199 characters. -/
def wideLine : ProcText where
  priority := 1
  beforeSize := .single
  lines :=
    let wide : Gap := ⟨List.replicate 200 ' ', by rw [Ne, List.replicate_eq_nil_iff]; decide,
      fun _ member => .inl (List.eq_of_mem_replicate member)⟩
    [⟨.syscall, [(wide, 5), (.single, 0), (.single, 0), (.single, 0)], rfl⟩]

/-- A program with 2^32 lines is loaded without any, and of a long `syscall` line the arguments are lost. -/
theorem load_manyLines_wideLine :
    ¬manyLines.Loads ⟨⟨fun _ => 0, [], fun _ => 0⟩, 0, 0, fun _ _ => 0⟩ ∧
      ¬wideLine.Loads ⟨⟨fun _ => 0, [], fun _ => 0⟩, 0, 0, fun _ _ => 0⟩ := by
  refine ⟨?_, ?_⟩
  · rintro ⟨program, loaded, -, all⟩
    have count : manyLines.lines.length = 2 ^ 32 := List.length_replicate
    rw [load_text _ _ (by omega), count, Nat.mod_self, loadText, Option.map_some] at loaded
    cases loaded
    have same : manyLines.lines.length = 0 := (all 0 0).2.length_eq
    omega
  · rintro ⟨program, loaded, -, all⟩
    have lost : (load ⟨⟨fun _ => 0, [], fun _ => 0⟩, 0, 0, fun _ _ => 0⟩ wideLine.text).map
        (fun program => program.text.map Inst.arg0) = some [0] := by decide +kernel
    obtain ⟨inst, text, holds, -, shape⟩ := List.forall₂_cons_left_iff.mp (all 0 0).2
    have five : inst.arg0 = 5 := (List.cons.inj holds.args).1
    have kept : program.text = inst :: text := shape
    rw [loaded, Option.map_some, kept, List.map_cons, five] at lost
    cases lost

end Programs

end SimpleOS.Model
