import CountedStack.Json.Record
import CountedStack.FloatBits

/-! What a stack asks of the type of its items. -/

namespace CountedStack

variable {α : Type}

/-! ### Absent values -/

class Absence (α : Type) where
  isAbsent : α → Bool

export Absence (isAbsent)

def isPresent [Absence α] (x : α) : Bool := !isAbsent x

theorem isAbsent_of_isPresent [Absence α] {x : α} (present : isPresent x = true) : isAbsent x = false := by
  simpa [isPresent] using present

instance : Absence Bool := ⟨fun b => !b⟩

instance : Absence String := ⟨String.isEmpty⟩

instance {lo hi : Int} : Absence (Bounded lo hi) := ⟨fun n => n.val == 0⟩

/-- Zero of either sign and what is not a number are absent. -/
instance {f : FloatFormat} : Absence (FloatBits f) := ⟨fun x => x.isZero || x.isNaN⟩

-- Only the outermost layer counts: `some 0` and `[none]` are present.
instance : Absence (Option α) := ⟨Option.isNone⟩

instance : Absence (List α) := ⟨List.isEmpty⟩

/-! ### Snapshots -/

class Snapshot (α : Type) where
  write : α → List Char
  read : Json.Reader α

namespace Snapshot

instance : Snapshot Bool := ⟨Json.writeBool, Json.readBool⟩

instance : Snapshot String := ⟨Json.Text.quote, Json.readString⟩

instance {lo hi : Int} : Snapshot (Bounded lo hi) := ⟨fun n => Decimal.write n.val, Json.readInt lo hi⟩

/-- A floating-point number is kept as the number of its bit pattern, so that every pattern comes back. -/
instance {f : FloatFormat} : Snapshot (FloatBits f) where
  write x := Decimal.write x.bits.toNat
  read cs :=
    match Json.readInt 0 (Nat.pow 2 f.width - 1 : Nat) cs with
    | .ok (n, rest) => .ok (⟨BitVec.ofNat _ n.val.toNat⟩, rest)
    | .error flaw => .error flaw

-- `some` leaves no trace in the text, so that nested options come back as one.
instance [Snapshot α] : Snapshot (Option α) := ⟨Json.writeOption write, Json.readOption read⟩

instance [Snapshot α] : Snapshot (List α) := ⟨Json.writeList write, Json.readList read⟩

def toJson [Snapshot α] (x : α) : String := String.ofList (write x)

def ofJson [Snapshot α] (text : String) : Except Json.Flaw α := Json.Reader.whole read text

end Snapshot

/-! ### Descriptions -/

/-- The text of a value for a person who looks for a fault: every layer is named. -/
class Describe (α : Type) where
  describe : α → String

export Describe (describe)

namespace Describe

def applied (name argument : String) : String := name ++ "(" ++ argument ++ ")"

def record (name : String) (fields : List (String × String)) : String :=
  name ++ " \x7b " ++ ", ".intercalate (fields.map fun f => f.1 ++ ": " ++ f.2) ++ " \x7d"

/-- Control characters that have no letter stand by their number in braces, and so does the hard space.
Which characters above it do not print either is a matter of the Unicode tables, and they stay as they are. -/
def escape (c : Char) : List Char :=
  if c = '"' ∨ c = '\\' then ['\\', c]
  else if c = '\x00' then ['\\', '0']
  else if c = '\n' then ['\\', 'n']
  else if c = '\r' then ['\\', 'r']
  else if c = '\t' then ['\\', 't']
  else if c.toNat < 0x20 ∨ 0x7f ≤ c.toNat ∧ c.toNat ≤ 0xa0 then
    ['\\', 'u', '{'] ++ Nat.toDigits 16 c.toNat ++ ['}']
  else [c]

instance : Describe Bool := ⟨fun b => if b then "true" else "false"⟩

instance : Describe String := ⟨fun s => String.ofList ('"' :: (s.toList.flatMap escape ++ ['"']))⟩

instance {lo hi : Int} : Describe (Bounded lo hi) := ⟨fun n => Decimal.text n.val⟩

/-- A floating-point number is described by the number of its bit pattern. -/
instance {f : FloatFormat} : Describe (FloatBits f) := ⟨fun x => Decimal.text x.bits.toNat⟩

instance [Describe α] : Describe (Option α) where
  describe
    | none => "None"
    | some x => applied "Some" (describe x)

instance [Describe α] : Describe (List α) where
  describe xs := "[" ++ ", ".intercalate (xs.map describe) ++ "]"

end Describe

class Item (α : Type) extends Absence α, BEq α, Snapshot α, Describe α

instance : Item Bool where

instance : Item String where

instance {lo hi : Int} : Item (Bounded lo hi) where

instance {f : FloatFormat} : Item (FloatBits f) where

instance [Item α] : Item (Option α) where

instance [Item α] : Item (List α) where

end CountedStack
