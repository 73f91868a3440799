import CountedStack.Integer

/-! What happens to a stack, and the lines that the log shows of it. -/

namespace CountedStack

inductive Level where
  | trace
  | debug
  | warn
deriving DecidableEq

def Level.name : Level → String
  | .trace => "TRACE"
  | .debug => "DEBUG"
  | .warn => "WARN"

structure Line where
  level : Level
  text : String
deriving DecidableEq

inductive Event where
  | pushed (depth : Count)
  | pushIgnored
  | popped (depth : Count)
  | popFailed
  /-- A pop left the counter below zero. -/
  | wentNegative (depth : Count)
  | cleared (dropped : Nat) (depth : Count)
deriving DecidableEq

namespace Event

def level : Event → Level
  | .pushed _ | .popped _ | .cleared .. => .trace
  | .pushIgnored | .popFailed => .debug
  | .wentNegative _ => .warn

def text : Event → String
  | .pushed depth => "push, depth " ++ Decimal.text depth.val
  | .pushIgnored => "ignoring push of absent item"
  | .popped depth => "pop, depth " ++ Decimal.text depth.val
  | .popFailed => "pop on empty stack"
  | .wentNegative depth => "depth counter went negative (" ++ Decimal.text depth.val ++ ")"
  | .cleared dropped depth =>
    "cleared " ++ Decimal.text dropped ++ " items, depth " ++ Decimal.text depth.val

def line (name : String) (e : Event) : Line := ⟨e.level, name ++ ": " ++ e.text⟩

end Event

end CountedStack
