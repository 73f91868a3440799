/-! Binary floating-point numbers by their bit patterns. Without the sign a pattern is its magnitude. -/

namespace CountedStack

structure FloatFormat where
  exponentBits : Nat
  fractionBits : Nat
deriving DecidableEq

namespace FloatFormat

def binary32 : FloatFormat := ⟨8, 23⟩

def binary64 : FloatFormat := ⟨11, 52⟩

/-- One sign bit, then the exponent and the fraction. -/
def width (f : FloatFormat) : Nat := 1 + f.exponentBits + f.fractionBits

/-- The magnitude of infinity: all exponent bits, no fraction bit. -/
def infinity (f : FloatFormat) : Nat := (Nat.pow 2 f.exponentBits - 1) * Nat.pow 2 f.fractionBits

end FloatFormat

structure FloatBits (f : FloatFormat) where
  bits : BitVec f.width

namespace FloatBits

variable {f : FloatFormat}

def magnitude (x : FloatBits f) : Nat := x.bits.toNat % Nat.pow 2 (f.exponentBits + f.fractionBits)

def isNaN (x : FloatBits f) : Bool := f.infinity < x.magnitude

/-- Zero of either sign. -/
def isZero (x : FloatBits f) : Bool := x.magnitude == 0

/-- A pattern that is not a number: infinity with the highest fraction bit set. -/
def nan (f : FloatFormat) : FloatBits f := ⟨BitVec.ofNat _ (f.infinity + Nat.pow 2 (f.fractionBits - 1))⟩

/-- Numbers compare by value: zeros of either sign are equal, and what is not a number equals
nothing, not even itself. -/
instance : BEq (FloatBits f) where
  beq a b := !a.isNaN && !b.isNaN && (a.bits == b.bits || a.isZero && b.isZero)

end FloatBits

end CountedStack
