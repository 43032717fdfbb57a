import Mathlib.Data.BitVec
import Mathlib.Data.List.Basic

/-! # Formatted input of the C library

The conversions `%lu`, `%d` and `%s` of the `scanf` family, `fgets` and the rest of a line read with `fgetc`, on
the characters that are left of a stream.
A conversion that fails leaves its variable unassigned and ends the call; the input it has looked at is
consumed up to the first character that does not fit.
-/

namespace SimpleOS.Lib

/-- `isspace` in the C locale. -/
def isSpace (c : Char) : Bool :=
  c = ' ' || c = '\t' || c = '\n' || c.toNat = 11 || c.toNat = 12 || c = '\r'

/-- A white-space directive. -/
def skipSpace (input : List Char) : List Char := input.dropWhile isSpace

/-- The value of a string of decimal digits. -/
def digitsValue (digits : List Char) : ℕ := digits.foldl (fun n c => 10 * n + (c.toNat - '0'.toNat)) 0

/-- `strtoul` in base 10: a value beyond 64 bits becomes the largest one, and a minus sign negates. -/
def strtoul (negative : Bool) (digits : List Char) : BitVec 64 :=
  let n := digitsValue digits
  if 2 ^ 64 ≤ n then BitVec.allOnes 64 else if negative then -BitVec.ofNat 64 n else BitVec.ofNat 64 n

/-- A sign, which is consumed even when no digit follows. -/
def scanSign : List Char → Bool × List Char
  | '-' :: rest => (true, rest)
  | '+' :: rest => (false, rest)
  | input => (false, input)

/-- `%lu`. -/
def scanULong (input : List Char) : Option (BitVec 64) × List Char :=
  let (negative, input) := scanSign (skipSpace input)
  match input.takeWhile Char.isDigit with
  | [] => (none, input)
  | digits => (some (strtoul negative digits), input.dropWhile Char.isDigit)

/-- `n` conversions `%lu` in a row: the values of those that succeed. -/
def scanULongs : ℕ → List Char → List (BitVec 64) × List Char
  | 0, input => ([], input)
  | n + 1, input =>
    match scanULong input with
    | (none, rest) => ([], rest)
    | (some value, rest) =>
      let (values, rest) := scanULongs n rest
      (value :: values, rest)

/-- `strtol` in base 10, which keeps to the ends of its range. -/
def strtol (negative : Bool) (digits : List Char) : BitVec 64 :=
  let n := digitsValue digits
  if negative then -BitVec.ofNat 64 (min n (2 ^ 63)) else BitVec.ofNat 64 (min n (2 ^ 63 - 1))

/-- `%d`. The number is read as a `long` and stored in an `int`. -/
def scanInt (input : List Char) : Option (BitVec 32) × List Char :=
  let (negative, input) := scanSign (skipSpace input)
  match input.takeWhile Char.isDigit with
  | [] => (none, input)
  | digits => (some ((strtol negative digits).setWidth 32), input.dropWhile Char.isDigit)

/-- `n` conversions of one kind in a row: the values of those that succeed. -/
def scanEach {α : Type*} (scan : List Char → Option α × List Char) : ℕ → List Char → List α × List Char
  | 0, input => ([], input)
  | n + 1, input =>
    match scan input with
    | (none, rest) => ([], rest)
    | (some value, rest) =>
      let (values, rest) := scanEach scan n rest
      (value :: values, rest)

/-- `%s`. It fails at the end of the input. -/
def scanWord (input : List Char) : Option (List Char) × List Char :=
  match skipSpace input with
  | [] => (none, [])
  | input => (some (input.takeWhile fun c => !isSpace c), input.dropWhile fun c => !isSpace c)

/-- At most `n` characters, up to and including a newline. -/
def readLine : ℕ → List Char → List Char × List Char
  | 0, input => ([], input)
  | _ + 1, [] => ([], [])
  | n + 1, c :: rest =>
    if c = '\n' then ([c], rest)
    else
      let (line, rest) := readLine n rest
      (c :: line, rest)

/-- `fgets` with a buffer of `size` characters. It fails at the end of the input. -/
def fgets (size : ℕ) (input : List Char) : Option (List Char) × List Char :=
  match input with
  | [] => (none, [])
  | input =>
    let (line, rest) := readLine (size - 1) input
    (some line, rest)

/-- `fgetc` up to and including a newline, or to the end of the input. -/
def skipLine (input : List Char) : List Char := (input.dropWhile fun c => c ≠ '\n').tail

/-- The part of a buffer in front of the terminating zero. -/
def cString (buffer : List Char) : List Char := buffer.takeWhile fun c => c ≠ '\x00'

end SimpleOS.Lib
