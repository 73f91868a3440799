/-! Integers within bounds, the counts among them, and the decimal text of integers. -/

namespace CountedStack

/-- The integers from `lo` to `hi`, both included. -/
structure Bounded (lo hi : Int) where
  val : Int
  lo_le : lo ≤ val
  le_hi : val ≤ hi
deriving DecidableEq

namespace Bounded

variable {lo hi : Int}

instance : CoeOut (Bounded lo hi) Int := ⟨val⟩

@[ext] theorem ext {a b : Bounded lo hi} (h : a.val = b.val) : a = b := by
  cases a; cases b; cases h; rfl

/-- The value within the bounds that is nearest to `n`. -/
def clamp (n : Int) (h : lo ≤ hi := by decide) : Bounded lo hi :=
  ⟨max lo (min n hi), Int.le_max_left .., by omega⟩

theorem val_clamp (n : Int) (h : lo ≤ hi) : (clamp n h : Bounded lo hi).val = max lo (min n hi) := rfl

theorem clamp_val (a : Bounded lo hi) (h : lo ≤ hi) : clamp a.val h = a :=
  ext (by have := a.lo_le; have := a.le_hi; rw [val_clamp]; omega)

def ofInt? (n : Int) : Option (Bounded lo hi) :=
  if h : lo ≤ n ∧ n ≤ hi then some ⟨n, h.1, h.2⟩ else none

theorem ofInt?_val (a : Bounded lo hi) : ofInt? a.val = some a := by
  simp [ofInt?, a.lo_le, a.le_hi]

theorem ofInt?_eq_none_iff {n : Int} : (ofInt? n : Option (Bounded lo hi)) = none ↔ n < lo ∨ hi < n := by
  unfold ofInt?
  split <;> simp <;> omega

end Bounded

/-- The values of a counter: the signed 64-bit integers. -/
abbrev Count := Bounded (-0x8000000000000000) 0x7fffffffffffffff

def Count.ofInt (n : Int) : Count := Bounded.clamp n

theorem Count.val_ofInt (n : Int) : (Count.ofInt n).val = max (-0x8000000000000000) (min n 0x7fffffffffffffff) := rfl

namespace Decimal

def natOf (digits : List Char) : Nat := Nat.ofDigitChars 10 digits 0

/-- No leading zeros, a minus sign in front of a negative integer. -/
def write (n : Int) : List Char :=
  if n < 0 then '-' :: Nat.toDigits 10 n.natAbs else Nat.toDigits 10 n.natAbs

def text (n : Int) : String := String.ofList (write n)

theorem toList_text (n : Int) : (text n).toList = write n := String.toList_ofList

theorem write_natCast (n : Nat) : write n = Nat.toDigits 10 n := by simp [write]

theorem natOf_toDigits (n : Nat) : natOf (Nat.toDigits 10 n) = n := Nat.ofDigitChars_ten_toDigits

def intOf (cs : List Char) : Int := if cs.head? = some '-' then -natOf cs.tail else natOf cs

theorem intOf_write (n : Int) : intOf (write n) = n := by
  unfold write
  split
  · have value : (n.natAbs : Int) = -n := by omega
    simp [intOf, natOf_toDigits, value]
  · have positive : (Nat.toDigits 10 n.natAbs).head? ≠ some '-' := by
      intro sign
      have digit := Nat.isDigit_of_mem_toDigits (by decide) (Nat.le_refl 10) (List.mem_of_head? sign)
      exact absurd digit (by decide)
    rw [intOf, if_neg positive, natOf_toDigits]
    omega

end Decimal

end CountedStack
