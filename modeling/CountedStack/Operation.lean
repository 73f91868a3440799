import CountedStack.Stack

/-! The five operations that can be looked up by name. -/

namespace CountedStack

inductive Operation (α : Type) where
  | push (arg : Option α)
  | pop
  | current
  | depth
  | len

structure UnknownOperation where
  name : String
deriving DecidableEq

def UnknownOperation.message (e : UnknownOperation) : String := "unknown stack operation: " ++ e.name

inductive Reply (α : Type) where
  | item (x : α)
  | int (n : Int)
  | nil

namespace Reply

variable {α : Type}

def ofOption : Option α → Reply α
  | some x => .item x
  | none => .nil

def isNil : Reply α → Bool
  | .nil => true
  | _ => false

instance [BEq α] : BEq (Reply α) where
  beq
    | .item x, .item y => x == y
    | .int m, .int n => m == n
    | .nil, .nil => true
    | _, _ => false

instance [Describe α] : Describe (Reply α) where
  describe
    | .item x => Describe.applied "Item" (describe x)
    | .int n => Describe.applied "Int" (Decimal.text n)
    | .nil => "Nil"

end Reply

namespace Operation

variable {α : Type}

def names : List String := ["push", "pop", "current", "depth", "len"]

def position : Operation α → Fin names.length
  | .push _ => ⟨0, by decide⟩
  | .pop => ⟨1, by decide⟩
  | .current => ⟨2, by decide⟩
  | .depth => ⟨3, by decide⟩
  | .len => ⟨4, by decide⟩

def name (op : Operation α) : String := names.get op.position

/-- The operation with the given name; the argument matters to `push` only. -/
def ofName (name : String) (arg : Option α) : Except UnknownOperation (Operation α) :=
  if name = "push" then .ok (.push arg)
  else if name = "pop" then .ok .pop
  else if name = "current" then .ok .current
  else if name = "depth" then .ok .depth
  else if name = "len" then .ok .len
  else .error ⟨name⟩

instance [BEq α] : BEq (Operation α) where
  beq
    | .push x, .push y => x == y
    | .pop, .pop | .current, .current | .depth, .depth | .len, .len => true
    | _, _ => false

instance [Describe α] : Describe (Operation α) where
  describe
    | .push arg => Describe.applied "Push" (describe arg)
    | .pop => "Pop"
    | .current => "Current"
    | .depth => "Depth"
    | .len => "Len"

/-- Runs an operation. A push without an argument does nothing and is not logged. -/
def run [Absence α] (s : Stack α) : Operation α → Outcome (Stack α) (Reply α)
  | .push (some x) => (s.push x).map .ofOption
  | .push none => ⟨s, .nil, []⟩
  | .pop => s.pop.map .ofOption
  | .current => ⟨s, .ofOption s.top?, []⟩
  | .depth => ⟨s, .int s.depth.value.val, []⟩
  | .len => ⟨s, .int s.size, []⟩

def call [Absence α] (s : Stack α) (name : String) (arg : Option α) :
    Outcome (Stack α) (Except UnknownOperation (Reply α)) :=
  match ofName name arg with
  | .ok op => (op.run s).map .ok
  | .error e => ⟨s, .error e, []⟩

end Operation

end CountedStack
