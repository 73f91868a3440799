import CountedStack.Depth

/-! A stack and its depth counter. The owner may set the counter at will: it need not tell the number of items. -/

namespace CountedStack

def Stack.defaultName : String := "stackView"

/-- A named stack with a depth counter; the top item comes first. -/
structure Stack (α : Type) where
  name : String := Stack.defaultName
  items : List α := []
  depth : Depth := {}
deriving DecidableEq

namespace Stack

variable {α : Type}

def size (s : Stack α) : Nat := s.items.length

def isEmpty (s : Stack α) : Bool := s.items.isEmpty

def top? (s : Stack α) : Option α := s.items.head?

def bottomUp (s : Stack α) : List α := s.items.reverse

def topDown (s : Stack α) : List α := s.items

instance [BEq α] : BEq (Stack α) where
  beq s t := s.name = t.name && s.items == t.items && s.depth = t.depth

/-- Puts an item on top, absent or not. -/
def place (s : Stack α) (x : α) : Outcome (Stack α) (Option α) where
  state := { s with items := x :: s.items, depth := s.depth.increment }
  answer := some x
  events := [.pushed s.depth.increment.value]

def ignorePush (s : Stack α) : Outcome (Stack α) (Option α) := ⟨s, none, [.pushIgnored]⟩

def push [Absence α] (s : Stack α) (x : α) : Outcome (Stack α) (Option α) :=
  if isAbsent x then s.ignorePush else s.place x

/-- Puts an item on top, if there is one; whether it is absent is not looked at. -/
def offer (s : Stack α) : Option α → Outcome (Stack α) (Option α)
  | some x => s.place x
  | none => s.ignorePush

def popEvents (d : Count) : List Event :=
  if d.val < 0 then [.wentNegative d, .popped d] else [.popped d]

def pop (s : Stack α) : Outcome (Stack α) (Option α) :=
  match s.items with
  | [] => ⟨s, none, [.popFailed]⟩
  | x :: rest =>
    ⟨{ s with items := rest, depth := s.depth.decrement }, some x, popEvents s.depth.decrement.value⟩

def clear (s : Stack α) : Outcome (Stack α) Unit where
  state := { s with items := [], depth := s.depth.subtract s.size }
  answer := ()
  events := [.cleared s.size (s.depth.subtract s.size).value]

structure Draft (α : Type) where
  name : Option String := none
  items : Option (List α) := none
  depth : Option Depth := none

/-- The stack of a complete draft, whose items stand from bottom to top. -/
def Draft.build (d : Draft α) : Option (Stack α) :=
  match d.name, d.items, d.depth with
  | some name, some items, some depth => some ⟨name, items.reverse, depth⟩
  | _, _, _ => none

def record [Snapshot α] : Json.Record (Draft α) (Stack α) where
  fields := [
    .of "name" Draft.name (fun d x => { d with name := some x }) Snapshot.read,
    .of "inner" Draft.items (fun d x => { d with items := some x }) Snapshot.read,
    .of "depth" Draft.depth (fun d x => { d with depth := some x }) Snapshot.read]
  empty := {}
  build := Draft.build
  expected := "struct ViewStack with 3 elements"

instance [Snapshot α] : Snapshot (Stack α) where
  write s := Json.writeObject [
    ("name", Snapshot.write s.name),
    ("inner", Snapshot.write s.bottomUp),
    ("depth", Snapshot.write s.depth)]
  read := record.read

instance [Describe α] : Describe (Stack α) where
  describe s := Describe.record "ViewStack" [
    ("name", describe s.name),
    ("inner", describe s.bottomUp),
    ("depth", describe s.depth)]

end Stack

end CountedStack
