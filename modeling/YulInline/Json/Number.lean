/-!
# Numbers of a JSON text

A number is kept as it is written: sign, decimal digits and exponent. Two things are asked of it. It
may be a plain natural number, which serves as an index; and it may be too large to be read as a
number at all. Reading is done in double precision from the digits that fit in 64 bits, and a text
whose value leaves that range is refused (`Number.InRange`).
-/

namespace YulInline.Json

/-- A number as written, digits being values from 0 to 9. -/
structure Number where
  /-- Whether a minus sign stands in front. -/
  negative : Bool
  /-- The digits in front of the point, of which there is at least one. -/
  whole : List Nat
  /-- The digits behind the point; none when there is no point. -/
  fraction : List Nat
  /-- The power of ten the digits are scaled by, if one is written. -/
  exponent : Option Int
deriving DecidableEq, Repr, Inhabited

namespace Number

/-- The largest number that fits in 64 bits. -/
def wordMax : Nat := 0xffffffffffffffff

/-- The value of decimal digits. -/
def valueOfDigits (digits : List Nat) : Nat :=
  digits.foldl (fun value digit => 10 * value + digit) 0

/-- The natural number that is written without sign, point and exponent and fits in 64 bits. -/
def index? (number : Number) : Option Nat :=
  let value := valueOfDigits number.whole
  let isPlain := !number.negative && number.fraction.isEmpty && number.exponent.isNone
  if isPlain && value ≤ wordMax then some value else none

/-- Appends digits to `value` as long as the result fits in 64 bits; gives the result and the number
of digits that are left. -/
def appendFitting (value : Nat) : List Nat → Nat × Nat
  | [] => (value, 0)
  | digit :: digits =>
    if 10 * value + digit ≤ wordMax then appendFitting (10 * value + digit) digits
    else (value, digits.length + 1)

/-- The digits that are read, as one natural number, and the power of ten that scales it. Digits
beyond those that fit in 64 bits count as zeros. -/
def scaled (number : Number) : Nat × Int :=
  let (whole, dropped) := appendFitting 0 number.whole
  let (significand, skipped) := appendFitting whole number.fraction
  let places := number.fraction.length - skipped
  (significand, dropped - places + number.exponent.getD 0)

/-- The nearest natural number with at most 53 significant bits; of two equally near ones the one
whose last significant bit is zero. -/
def roundToDouble (n : Nat) : Nat :=
  let unit := Nat.pow 2 (n.log2 + 1 - 53)
  let quotient := n / unit
  let remainder := n % unit
  let roundsUp := unit < 2 * remainder ∨ (2 * remainder = unit ∧ quotient % 2 = 1)
  (if roundsUp then quotient + 1 else quotient) * unit

/-- The least natural number that is too large for double precision: half a unit above the largest
double. -/
def doubleLimit : Nat := Nat.pow 2 1024 - Nat.pow 2 970

/-- Whether the number can be read. A significand of zero and a negative scale always can; otherwise
the product of significand and power of ten has to stay below the limit of double precision, where
no power above the 308th is tried. -/
def InRange (number : Number) : Prop :=
  let (significand, scale) := number.scaled
  significand = 0 ∨ scale < 0 ∨
    (scale ≤ 308 ∧
      roundToDouble significand * roundToDouble (Nat.pow 10 scale.toNat) < doubleLimit)

instance (number : Number) : Decidable number.InRange := by
  unfold InRange
  infer_instance

/-- The text of a number. -/
def render (number : Number) : String :=
  let digits (values : List Nat) := String.ofList (values.map Nat.digitChar)
  let point := if number.fraction = [] then "" else "." ++ digits number.fraction
  let power := match number.exponent with
    | none => ""
    | some exponent => "e" ++ toString exponent
  (if number.negative then "-" else "") ++ digits number.whole ++ point ++ power

end Number

end YulInline.Json
