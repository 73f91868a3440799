import CountedStack.Item

/-! The types of the items that a stack is used with, as data, nested less deeply than 128 levels (see `Json.Value`). -/

namespace CountedStack

/-- Something on screen that is known by its number. -/
structure View where
  id : Bounded 0 0xffffffff
deriving DecidableEq

namespace View

def record : Json.Record (Option (Bounded 0 0xffffffff)) View where
  fields := [.of "id" (fun d => d) (fun _ n => some n) Snapshot.read]
  empty := none
  build := Option.map View.mk
  expected := "struct View with 1 element"

instance : Item View where
  isAbsent _ := false
  write v := Json.writeObject [("id", Snapshot.write v.id)]
  read := record.read
  describe v := Describe.record "View" [("id", describe v.id)]

end View

inductive Kind where
  | int (lo hi : Int)
  | float (f : FloatFormat)
  | bool
  | text
  | view
  | list (k : Kind)
  | option (k : Kind)
deriving DecidableEq

namespace Kind

def signed (bits : Nat) : Kind := .int (-Nat.pow 2 (bits - 1)) (Nat.pow 2 (bits - 1) - 1)

def unsigned (bits : Nat) : Kind := .int 0 (Nat.pow 2 bits - 1)

def Value : Kind → Type
  | .int lo hi => Bounded lo hi
  | .float f => FloatBits f
  | .bool => Bool
  | .text => String
  | .view => View
  | .list k => List k.Value
  | .option k => Option k.Value

instance item : (k : Kind) → Item k.Value
  | .int lo hi => inferInstanceAs (Item (Bounded lo hi))
  | .float f => inferInstanceAs (Item (FloatBits f))
  | .bool => inferInstanceAs (Item Bool)
  | .text => inferInstanceAs (Item String)
  | .view => inferInstanceAs (Item View)
  | .list k =>
    have := item k
    inferInstanceAs (Item (List k.Value))
  | .option k =>
    have := item k
    inferInstanceAs (Item (Option k.Value))

end Kind

end CountedStack
