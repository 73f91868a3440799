import CountedStack.Json.Flaw

/-! The text of a number in its parts. An integer has neither fraction nor exponent, and `-0` is not one. -/

namespace CountedStack.Json

structure Number where
  negative : Bool
  whole : List Char
  fraction : Option (List Char)
  exponent : Option Int
deriving DecidableEq

namespace Number

def digits (cs : List Char) : List Char × List Char :=
  (cs.takeWhile Char.isDigit, cs.dropWhile Char.isDigit)

def sign : List Char → Bool × List Char
  | '-' :: cs => (true, cs)
  | cs => (false, cs)

/-- At least one digit; a leading zero stands alone. -/
def wholePart (cs : List Char) : Option (List Char × List Char) :=
  match digits cs with
  | ([], _) => none
  | ('0' :: _ :: _, _) => none
  | (ds, rest) => some (ds, rest)

def fractionPart : List Char → Option (Option (List Char) × List Char)
  | '.' :: cs =>
    match digits cs with
    | ([], _) => none
    | (ds, rest) => some (some ds, rest)
  | cs => some (none, cs)

def exponentDigits (negative : Bool) (cs : List Char) : Option (Option Int × List Char) :=
  match digits cs with
  | ([], _) => none
  | (ds, rest) =>
    let n : Int := Decimal.natOf ds
    some (some (if negative then -n else n), rest)

def exponentPart : List Char → Option (Option Int × List Char)
  | c :: cs =>
    if c = 'e' ∨ c = 'E' then
      match cs with
      | '+' :: cs => exponentDigits false cs
      | '-' :: cs => exponentDigits true cs
      | cs => exponentDigits false cs
    else some (none, c :: cs)
  | [] => some (none, [])

def scan (cs : List Char) : Option (Number × List Char) :=
  let (negative, cs) := sign cs
  match wholePart cs with
  | none => none
  | some (whole, cs) =>
    match fractionPart cs with
    | none => none
    | some (fraction, cs) =>
      match exponentPart cs with
      | none => none
      | some (exponent, cs) => some (⟨negative, whole, fraction, exponent⟩, cs)

def integer? (n : Number) : Option Int :=
  match n.fraction, n.exponent with
  | none, none =>
    let m : Nat := Decimal.natOf n.whole
    if n.negative then if m = 0 then none else some (-m) else some m
  | _, _ => none

/-- Appends digits to `m` for as long as the result fits an unsigned 64-bit word; the digits left over. -/
def accumulate (m : Nat) : List Char → Nat × List Char
  | [] => (m, [])
  | d :: ds =>
    let m' := 10 * m + (d.toNat - '0'.toNat)
    if m' ≤ 0xffffffffffffffff then accumulate m' ds else (m, d :: ds)

/-- The nearest number of 53 significant bits, of two the even one. -/
def round53 (n : Nat) : Nat :=
  let scale := Nat.pow 2 (n.log2 + 1 - 53)
  let q := n / scale
  let r := n % scale
  if 2 * r > scale ∨ 2 * r = scale ∧ q % 2 = 1 then (q + 1) * scale else q * scale

/-- The significant digits that are kept, and the power of ten that goes with them. -/
def scaled (n : Number) : Nat × Int :=
  let fraction := n.fraction.getD []
  let (head, wholeLeft) := accumulate 0 n.whole
  let (significand, fractionLeft) := accumulate head fraction
  (significand, wholeLeft.length - (fraction.length - fractionLeft.length : Nat) + n.exponent.getD 0)

/-- The number overflows a double: the significand times the power of ten, both rounded to doubles
and so is their product, is no longer finite. -/
def isHuge (n : Number) : Bool :=
  let (significand, power) := n.scaled
  significand ≠ 0 &&
    (power > 308 || power ≥ 0 && round53 (round53 significand * round53 (Nat.pow 10 power.toNat)) ≥ Nat.pow 2 1024)

end Number

end CountedStack.Json
