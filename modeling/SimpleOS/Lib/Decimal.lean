import Mathlib.Data.List.DropRight
import SimpleOS.Lib.Scan

/-! # Reading back what was printed

Decimal numbers and words with blanks in front of them, and what the conversions of a format read from such a
text when anything follows it. A number ends where no digit follows, a word where white space follows.
-/

namespace SimpleOS.Lib

variable {α β : Type*}

/-- `%lu` of `printf`. -/
def decimal (n : ℕ) : List Char := Nat.toDigits 10 n

/-- `%d` of `printf`. -/
def intDecimal (z : ℤ) : List Char := if z < 0 then '-' :: decimal z.natAbs else decimal z.natAbs

/-- The blanks in front of a word. -/
structure Gap where
  chars : List Char
  nonempty : chars ≠ []
  blank : ∀ c ∈ chars, c = ' ' ∨ c = '\t'

/-- One blank. -/
def Gap.single : Gap := ⟨[' '], by simp, by simp⟩

/-- Input on which a conversion that takes the characters with `p` stops. -/
def StopsAt (p : Char → Bool) (rest : List Char) : Prop := ∀ c ∈ rest.head?, p c = false

section Chunks

variable {p : Char → Bool} {chunk rest : List Char}

@[simp] theorem stopsAt_nil : StopsAt p [] := by simp [StopsAt]

@[simp] theorem stopsAt_cons {c : Char} : StopsAt p (c :: rest) ↔ p c = false := by simp [StopsAt]

theorem takeWhile_of_stopsAt (stop : StopsAt p rest) : rest.takeWhile p = [] := by
  cases rest with
  | nil => rfl
  | cons c rest => simp [stopsAt_cons.mp stop]

theorem dropWhile_of_stopsAt (stop : StopsAt p rest) : rest.dropWhile p = rest := by
  cases rest with
  | nil => rfl
  | cons c rest => simp [stopsAt_cons.mp stop]

theorem takeWhile_chunk (inside : ∀ c ∈ chunk, p c) (stop : StopsAt p rest) :
    (chunk ++ rest).takeWhile p = chunk := by
  rw [List.takeWhile_append_of_pos inside, takeWhile_of_stopsAt stop, List.append_nil]

theorem dropWhile_chunk (inside : ∀ c ∈ chunk, p c) (stop : StopsAt p rest) :
    (chunk ++ rest).dropWhile p = rest := by
  rw [List.dropWhile_append_of_pos inside, dropWhile_of_stopsAt stop]

end Chunks

section Blanks

variable {rest : List Char}

theorem isSpace_of_blank {c : Char} (blank : c = ' ' ∨ c = '\t') : isSpace c := by
  rcases blank with rfl | rfl <;> rfl

theorem Gap.isSpace (gap : Gap) : ∀ c ∈ gap.chars, Lib.isSpace c :=
  fun c member => isSpace_of_blank (gap.blank c member)

theorem skipSpace_idem (input : List Char) : skipSpace (skipSpace input) = skipSpace input :=
  List.dropWhile_idempotent isSpace input

@[simp] theorem skipSpace_gap (gap : Gap) : skipSpace (gap.chars ++ rest) = skipSpace rest :=
  List.dropWhile_append_of_pos gap.isSpace

@[simp] theorem skipSpace_newline : skipSpace ('\n' :: rest) = skipSpace rest := rfl

/-- A gap ends a number and a word. -/
theorem Gap.stopsAt (gap : Gap) (rest : List Char) {p : Char → Bool} (blank : p ' ' = false) (tab : p '\t' = false) :
    StopsAt p (gap.chars ++ rest) := by
  cases shape : gap.chars with
  | nil => exact absurd shape gap.nonempty
  | cons c chars =>
    have first : c = ' ' ∨ c = '\t' := gap.blank c (by simp [shape])
    rw [List.cons_append, stopsAt_cons]
    rcases first with rfl | rfl
    · exact blank
    · exact tab

theorem Gap.noNewline (gap : Gap) : ∀ c ∈ gap.chars, c ≠ '\n' := by
  rintro _ member rfl
  rcases gap.blank _ member with same | same <;> cases same

end Blanks

section Numbers

variable {rest : List Char}

theorem decimal_ne_nil (n : ℕ) : decimal n ≠ [] := Nat.toDigits_ne_nil

theorem isDigit_of_mem_decimal {n : ℕ} {c : Char} (member : c ∈ decimal n) : c.isDigit :=
  Nat.isDigit_of_mem_toDigits (by omega) (by omega) member

theorem decimal_noNewline {n : ℕ} : ∀ c ∈ decimal n, c ≠ '\n' := by
  rintro _ member rfl
  cases isDigit_of_mem_decimal member

@[simp] theorem digitsValue_decimal (n : ℕ) : digitsValue (decimal n) = n := by
  have read : Nat.ofDigitChars 10 (decimal n) 0 = n := Nat.ofDigitChars_ten_toDigits
  rwa [Nat.ofDigitChars_eq_foldl] at read

theorem isSpace_of_isDigit {c : Char} (digit : c.isDigit) : isSpace c = false := by
  have bounds : 48 ≤ c.toNat ∧ c.toNat ≤ 57 := by simpa [Char.isDigit, UInt32.le_iff_toNat_le] using digit
  have apart (d : Char) (low : d.toNat < 48) : c ≠ d := by
    rintro rfl
    omega
  simp [isSpace, apart ' ' (by decide), apart '\t' (by decide), apart '\n' (by decide),
    apart '\r' (by decide), show c.toNat ≠ 11 by omega, show c.toNat ≠ 12 by omega]

theorem scanULong_of_digits {input digits : List Char} {negative : Bool}
    (sign : scanSign (skipSpace input) = (negative, digits ++ rest)) (nonempty : digits ≠ [])
    (inside : ∀ c ∈ digits, c.isDigit) (stop : StopsAt Char.isDigit rest) :
    scanULong input = (some (strtoul negative digits), rest) := by
  simp only [scanULong, sign, takeWhile_chunk inside stop, dropWhile_chunk inside stop]

theorem scanInt_of_digits {input digits : List Char} {negative : Bool}
    (sign : scanSign (skipSpace input) = (negative, digits ++ rest)) (nonempty : digits ≠ [])
    (inside : ∀ c ∈ digits, c.isDigit) (stop : StopsAt Char.isDigit rest) :
    scanInt input = (some ((strtol negative digits).setWidth 32), rest) := by
  simp only [scanInt, sign, takeWhile_chunk inside stop, dropWhile_chunk inside stop]

theorem skipSpace_of_stopsAt (stop : StopsAt isSpace rest) : skipSpace rest = rest :=
  dropWhile_of_stopsAt stop

theorem stopsAt_decimal (n : ℕ) : StopsAt isSpace (decimal n ++ rest) := by
  cases shape : decimal n with
  | nil => exact absurd shape (decimal_ne_nil n)
  | cons c digits =>
    have digit : c.isDigit := isDigit_of_mem_decimal (n := n) (by simp [shape])
    rw [List.cons_append, stopsAt_cons, isSpace_of_isDigit digit]

/-- A number has no sign in front. -/
theorem scanSign_decimal (n : ℕ) : scanSign (skipSpace (decimal n ++ rest)) = (false, decimal n ++ rest) := by
  rw [skipSpace_of_stopsAt (stopsAt_decimal n)]
  cases shape : decimal n with
  | nil => exact absurd shape (decimal_ne_nil n)
  | cons c digits =>
    have digit : c.isDigit := isDigit_of_mem_decimal (n := n) (by simp [shape])
    rw [List.cons_append]
    by_cases minus : c = '-'
    · subst minus
      cases digit
    by_cases plus : c = '+'
    · subst plus
      cases digit
    simp [scanSign, minus, plus]

theorem scanSign_intDecimal (z : ℤ) :
    scanSign (skipSpace (intDecimal z ++ rest)) = (decide (z < 0), decimal z.natAbs ++ rest) := by
  by_cases negative : z < 0
  · simp [intDecimal, negative, skipSpace, isSpace, scanSign]
  · simp only [intDecimal, negative, if_false, scanSign_decimal, decide_false]

/-- `%lu` reads back a number of 64 bits. -/
theorem scanULong_decimal {n : ℕ} (small : n < 2 ^ 64) (stop : StopsAt Char.isDigit rest) :
    scanULong (decimal n ++ rest) = (some (BitVec.ofNat 64 n), rest) := by
  rw [scanULong_of_digits (scanSign_decimal n) (decimal_ne_nil n) (fun _ => isDigit_of_mem_decimal) stop]
  simp only [strtoul, digitsValue_decimal, if_neg (by omega : ¬2 ^ 64 ≤ n), Bool.false_eq_true, if_false]

/-- `%d` takes a number of any size. -/
theorem scanInt_some (n : ℕ) (stop : StopsAt Char.isDigit rest) :
    ∃ value, scanInt (decimal n ++ rest) = (some value, rest) :=
  ⟨_, scanInt_of_digits (scanSign_decimal n) (decimal_ne_nil n) (fun _ => isDigit_of_mem_decimal) stop⟩

/-- `%d` reads back a number of 32 bits. -/
theorem scanInt_toInt (v : BitVec 32) (stop : StopsAt Char.isDigit rest) :
    scanInt (intDecimal v.toInt ++ rest) = (some v, rest) := by
  rw [scanInt_of_digits (scanSign_intDecimal _) (decimal_ne_nil _) (fun _ => isDigit_of_mem_decimal) stop]
  have value : (strtol (decide (v.toInt < 0)) (decimal v.toInt.natAbs)).setWidth 32 = BitVec.ofInt 32 v.toInt := by
    have low : -2 ^ 31 ≤ v.toInt := BitVec.le_toInt v
    have high : v.toInt < 2 ^ 31 := BitVec.toInt_lt
    simp only [strtol, digitsValue_decimal]
    by_cases negative : v.toInt < 0
    · rw [decide_eq_true negative, if_pos rfl, BitVec.setWidth_neg_of_le (by omega),
        BitVec.setWidth_ofNat_of_le (by omega), Nat.min_eq_left (by omega), ← BitVec.ofInt_natCast,
        ← BitVec.ofInt_neg]
      congr 1
      omega
    · rw [decide_eq_false negative, if_neg (by decide), BitVec.setWidth_ofNat_of_le (by omega),
        Nat.min_eq_left (by omega), ← BitVec.ofInt_natCast]
      congr 1
      omega
  rw [value, BitVec.ofInt_toInt]

theorem intDecimal_natCast (n : ℕ) : intDecimal n = decimal n := by simp [intDecimal]

theorem scanInt_decimal {n : ℕ} (small : n < 2 ^ 31) (stop : StopsAt Char.isDigit rest) :
    scanInt (decimal n ++ rest) = (some (BitVec.ofNat 32 n), rest) := by
  have value : (BitVec.ofNat 32 n).toInt = n := by
    rw [BitVec.toInt_ofNat', Int.bmod_eq_of_le (by omega) (by omega)]
  rw [← intDecimal_natCast, ← value, scanInt_toInt _ stop]

theorem scanULong_skipSpace (input : List Char) : scanULong (skipSpace input) = scanULong input := by
  simp only [scanULong, skipSpace_idem]

theorem scanInt_skipSpace (input : List Char) : scanInt (skipSpace input) = scanInt input := by
  simp only [scanInt, skipSpace_idem]

@[simp] theorem scanULong_gap (gap : Gap) : scanULong (gap.chars ++ rest) = scanULong rest := by
  rw [← scanULong_skipSpace, skipSpace_gap, scanULong_skipSpace]

@[simp] theorem scanInt_gap (gap : Gap) : scanInt (gap.chars ++ rest) = scanInt rest := by
  rw [← scanInt_skipSpace, skipSpace_gap, scanInt_skipSpace]

theorem scanULongs_eq (n : ℕ) (input : List Char) : scanULongs n input = scanEach scanULong n input := by
  induction n generalizing input with
  | zero => rfl
  | succ n ih =>
    simp only [scanULongs, scanEach, ih]
    cases scanULong input with
    | mk value rest => cases value <;> rfl

/-- Conversions in a row read back a row of fields when each reads back its field in front of any other. -/
theorem scanEach_flatMap {scan : List Char → Option α × List Char} {print : β → List Char} {value : β → α}
    {End : List Char → Prop} (read : ∀ field rest, End rest → scan (print field ++ rest) = (some (value field), rest))
    (next : ∀ field rest, End (print field ++ rest)) (fields : List β) (stop : End rest) :
    scanEach scan fields.length (fields.flatMap print ++ rest) = (fields.map value, rest) := by
  induction fields with
  | nil => rfl
  | cons field fields ih =>
    have stops : End (fields.flatMap print ++ rest) := by
      cases fields with
      | nil => exact stop
      | cons => simpa only [List.flatMap_cons, List.append_assoc] using next _ _
    simp only [List.length_cons, scanEach, List.flatMap_cons, List.append_assoc, read field _ stops, ih,
      List.map_cons]

/-- A sign is looked for at the front only. -/
theorem scanSign_append {word : List Char} (nonempty : word ≠ []) :
    scanSign (word ++ rest) = ((scanSign word).1, (scanSign word).2 ++ rest) := by
  cases word with
  | nil => exact absurd rfl nonempty
  | cons c word =>
    by_cases minus : c = '-'
    · subst minus
      rfl
    by_cases plus : c = '+'
    · subst plus
      rfl
    simp [scanSign, minus, plus]

theorem mem_of_mem_scanSign {word : List Char} {c : Char} (member : c ∈ (scanSign word).2) : c ∈ word := by
  cases word with
  | nil => exact member
  | cons d word =>
    by_cases minus : d = '-'
    · subst minus
      exact List.mem_cons_of_mem _ member
    by_cases plus : d = '+'
    · subst plus
      exact List.mem_cons_of_mem _ member
    simpa [scanSign, minus, plus] using member

end Numbers

theorem length_flatMap_le {print : β → List α} {fields : List β} {n : ℕ}
    (width : ∀ field ∈ fields, (print field).length ≤ n) : (fields.flatMap print).length ≤ fields.length * n := by
  induction fields with
  | nil => simp
  | cons field fields ih =>
    have first := width field (by simp)
    have others := ih fun other member => width other (by simp [member])
    rw [List.flatMap_cons, List.length_append, List.length_cons, Nat.add_mul]
    omega

section Words

variable {word rest : List Char}

/-- `%s` reads back a word. -/
theorem scanWord_word (nonempty : word ≠ []) (inside : ∀ c ∈ word, isSpace c = false)
    (stop : StopsAt (fun c => !isSpace c) rest) : scanWord (word ++ rest) = (some word, rest) := by
  have taken : ∀ c ∈ word, !isSpace c := fun c member => by simp [inside c member]
  have space : skipSpace (word ++ rest) = word ++ rest := by
    cases word with
    | nil => exact absurd rfl nonempty
    | cons c word => simp [skipSpace, inside c (by simp)]
  have shape : word ++ rest ≠ [] := by simp [nonempty]
  simp only [scanWord, space, takeWhile_chunk taken stop, dropWhile_chunk taken stop]

theorem scanWord_skipSpace (input : List Char) : scanWord (skipSpace input) = scanWord input := by
  simp only [scanWord, skipSpace_idem]

@[simp] theorem scanWord_gap (gap : Gap) : scanWord (gap.chars ++ rest) = scanWord rest := by
  rw [← scanWord_skipSpace, skipSpace_gap, scanWord_skipSpace]

end Words

section Lines

variable {line rest : List Char}

theorem skipLine_line (inside : ∀ c ∈ line, c ≠ '\n') : skipLine (line ++ '\n' :: rest) = rest := by
  have taken : ∀ c ∈ line, decide (c ≠ '\n') := fun c member => decide_eq_true (inside c member)
  rw [skipLine, dropWhile_chunk taken (by simp), List.tail_cons]

/-- Up to the end of the line it does not matter how much of it has been read. -/
theorem skipLine_dropWhile {p : Char → Bool} (newline : p '\n' = false) (input : List Char) :
    skipLine (input.dropWhile p) = skipLine input := by
  induction input with
  | nil => rfl
  | cons c input ih =>
    by_cases taken : p c
    · have other : c ≠ '\n' := by
        rintro rfl
        rw [newline] at taken
        cases taken
      have skip : skipLine (c :: input) = skipLine input := by simp [skipLine, other]
      rw [List.dropWhile_cons_of_pos taken, ih, skip]
    · rw [List.dropWhile_cons_of_neg taken]

/-- A line that fits in the buffer is read up to its end, with or without the newline. -/
theorem readLine_line {n : ℕ} (inside : ∀ c ∈ line, c ≠ '\n') (fits : line.length ≤ n) :
    readLine n (line ++ '\n' :: rest) = (line ++ ['\n'], rest) ∨
      readLine n (line ++ '\n' :: rest) = (line, '\n' :: rest) := by
  induction line generalizing n with
  | nil =>
    cases n with
    | zero => exact .inr rfl
    | succ n => exact .inl rfl
  | cons c line ih =>
    obtain ⟨n, rfl⟩ : ∃ m, n = m + 1 := ⟨n - 1, by simp at fits; omega⟩
    have other : c ≠ '\n' := inside c (by simp)
    have rest := ih (n := n) (fun c member => inside c (by simp [member])) (by simpa using fits)
    simp only [List.cons_append, readLine, if_neg other]
    rcases rest with rest | rest
    · exact .inl (by rw [rest])
    · exact .inr (by rw [rest])

theorem fgets_line {size : ℕ} (inside : ∀ c ∈ line, c ≠ '\n') (fits : line.length < size) :
    fgets size (line ++ '\n' :: rest) = (some (line ++ ['\n']), rest) ∨
      fgets size (line ++ '\n' :: rest) = (some line, '\n' :: rest) := by
  have shape : line ++ '\n' :: rest ≠ [] := by simp
  have cases' := @readLine_line line rest (size - 1) inside (Nat.le_sub_one_of_lt fits)
  rcases cases' with read | read
  · exact .inl (by simp only [fgets, read])
  · exact .inr (by simp only [fgets, read])

theorem cString_of_noNul (noNul : ∀ c ∈ line, c ≠ '\x00') : cString line = line := by
  have all : ∀ c ∈ line, decide (c ≠ '\x00') := fun c member => decide_eq_true (noNul c member)
  have whole := takeWhile_chunk all stopsAt_nil
  rwa [List.append_nil] at whole

end Lines

end SimpleOS.Lib
