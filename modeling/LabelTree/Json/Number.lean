import LabelTree.Json.Scan

/-!
# JSON: numbers

A snapshot holds no numbers, but its text may: where the value of an unknown key is passed over only
the grammar of a number counts, and where a number stands in the place of another value it is read
as a double first, so that one too large for a double is a fault of the text. Rounding is done on
natural numbers: a number too large for a double has an exponent that is not negative.
-/

namespace LabelTree.Json

/-! ## Numbers passed over -/

def skipDigits (cs : List Char) : List Char :=
  cs.dropWhile Char.isDigit

theorem length_skipDigits (cs : List Char) : (skipDigits cs).length ≤ cs.length :=
  (List.dropWhile_suffix Char.isDigit).length_le

/-- Passes over at least one digit. -/
def digits : List Char → Except Fault (List Char)
  | c :: cs => if c.isDigit then .ok (skipDigits cs) else .error .malformed
  | [] => .error .malformed

def skipExponent : List Char → Except Fault (List Char)
  | c :: cs =>
    if c = 'e' ∨ c = 'E' then
      match cs with
      | '+' :: cs => digits cs
      | '-' :: cs => digits cs
      | cs => digits cs
    else .ok (c :: cs)
  | [] => .ok []

def skipFraction : List Char → Except Fault (List Char)
  | '.' :: cs =>
    match digits cs with
    | .error e => .error e
    | .ok rest => skipExponent rest
  | cs => skipExponent cs

/-- Passes over a number without its sign. A leading zero stands alone before the fraction. -/
def skipNumber : List Char → Except Fault (List Char)
  | '0' :: c :: cs => if c.isDigit then .error .malformed else skipFraction (c :: cs)
  | c :: cs => if c.isDigit then skipFraction (skipDigits cs) else .error .malformed
  | [] => .error .malformed

theorem length_digits {cs rest : List Char} (h : digits cs = .ok rest) :
    rest.length < cs.length := by
  unfold digits at h
  split at h
  · split at h <;> cases h
    exact Nat.lt_succ_of_le (length_skipDigits _)
  · cases h

theorem length_skipExponent {cs rest : List Char} (h : skipExponent cs = .ok rest) :
    rest.length ≤ cs.length := by
  unfold skipExponent at h
  split at h
  · split at h
    · split at h
      all_goals
        have := length_digits h
        simp only [List.length_cons]
        omega
    · cases h; exact Nat.le_refl _
  · cases h; exact Nat.le_refl _

theorem length_skipFraction {cs rest : List Char} (h : skipFraction cs = .ok rest) :
    rest.length ≤ cs.length := by
  unfold skipFraction at h
  split at h
  · split at h
    · cases h
    · rename_i hd
      have := length_digits hd
      have := length_skipExponent h
      simp only [List.length_cons]
      omega
  · exact length_skipExponent h

theorem length_skipNumber {cs rest : List Char} (h : skipNumber cs = .ok rest) :
    rest.length < cs.length := by
  unfold skipNumber at h
  split at h
  · split at h
    · cases h
    · exact Nat.lt_succ_of_le (length_skipFraction h)
  · split at h
    · exact Nat.lt_succ_of_le (Nat.le_trans (length_skipFraction h) (length_skipDigits _))
    · cases h
  · cases h

/-! ## Numbers too large -/

/-- A natural number rounded to 53 significant bits, a tie to the even neighbour. -/
def roundDouble (n : Nat) : Nat :=
  let unit := Nat.pow 2 (Nat.log2 n + 1 - 53)
  let quotient := n / unit
  let twice := 2 * (n % unit)
  let up := twice > unit ∨ (twice = unit ∧ quotient % 2 = 1)
  (if up then quotient + 1 else quotient) * unit

/-- Whether `significand * 10 ^ exponent` overflows a double. Both factors are rounded to doubles
before they are multiplied, and powers above 10³⁰⁸ are not doubles. -/
def overflows (significand : Nat) (exponent : Int) : Bool :=
  match exponent with
  | .negSucc _ => false
  | .ofNat e =>
    if significand = 0 then false
    else e > 308 || roundDouble (roundDouble significand * roundDouble (Nat.pow 10 e)) ≥
      Nat.pow 2 1024

/-- The greatest significand kept while digits are read; the digits after it are dropped. -/
def largestSignificand : Nat := Nat.pow 2 64 - 1

/-- The greatest exponent that is read as a number. -/
def largestExponent : Nat := Nat.pow 2 31 - 1

/-- The fault of a number with these parts in the place of another value. -/
def rangeFault (significand : Nat) (exponent : Int) : Fault :=
  if overflows significand exponent then .malformed else .mistyped

/-- The fault of a number with an exponent too great to be read. Only a zero does not overflow. -/
def hugeFault (significand : Nat) : Fault :=
  if significand = 0 then .mistyped else .malformed

/-- The fault of a number whose exponent's digits come next. -/
def powerFault (significand : Nat) (scale : Int) (negative : Bool) : List Char → Fault
  | [] => .truncated
  | c :: cs =>
    if c.isDigit then
      let e := Nat.ofDigitChars 10 (c :: cs.takeWhile Char.isDigit) 0
      if negative then
        if e > largestExponent then .mistyped else rangeFault significand (scale - e)
      else if e > largestExponent then hugeFault significand
      else rangeFault significand (scale + e)
    else .malformed

/-- The fault of a number whose exponent may come next. -/
def exponentFault (significand : Nat) (scale : Int) : List Char → Fault
  | c :: cs =>
    if c = 'e' ∨ c = 'E' then
      match cs with
      | '-' :: cs => powerFault significand scale true cs
      | '+' :: cs => powerFault significand scale false cs
      | cs => powerFault significand scale false cs
    else rangeFault significand scale
  | [] => rangeFault significand scale

/-- The fault of a number whose further digits of the fraction come next. Digits that the
significand cannot take are dropped. -/
def decimalsFault (significand : Nat) (scale : Int) : List Char → Fault
  | [] => rangeFault significand scale
  | c :: cs =>
    if c.isDigit then
      let grown := significand * 10 + (c.toNat - '0'.toNat)
      if grown > largestSignificand then exponentFault significand scale (skipDigits cs)
      else decimalsFault grown (scale - 1) cs
    else exponentFault significand scale (c :: cs)

/-- The fault of a number whose fraction may come next. -/
def fractionFault (significand : Nat) (scale : Int) : List Char → Fault
  | ['.'] => .truncated
  | '.' :: c :: cs => if c.isDigit then decimalsFault significand scale (c :: cs) else .malformed
  | cs => exponentFault significand scale cs

/-- The fault of a number whose digits before the fraction come next. Digits that the significand
cannot take only count towards the exponent. -/
def integerFault (significand : Nat) : List Char → Fault
  | [] => fractionFault significand 0 []
  | c :: cs =>
    if c.isDigit then
      let grown := significand * 10 + (c.toNat - '0'.toNat)
      if grown > largestSignificand then
        let dropped := (c :: cs).takeWhile Char.isDigit
        fractionFault significand dropped.length (skipDigits cs)
      else integerFault grown cs
    else fractionFault significand 0 (c :: cs)

/-- The fault of a number, without its sign, in the place of another value. -/
def numberFault : List Char → Fault
  | [] => .truncated
  | '0' :: cs =>
    match cs with
    | c :: _ => if c.isDigit then .malformed else fractionFault 0 0 cs
    | [] => .mistyped
  | c :: cs => if c.isDigit then integerFault 0 (c :: cs) else .malformed

end LabelTree.Json
