import CountedStack.Pool

/-!
A ledger follows the steps of a pool without carrying any of them out. It knows for which stack each handle was
made, and it enters what is asked of a stack into the account of that stack.
-/

namespace CountedStack.Pool

variable {α : Type}

namespace Step

/-- Whether a step asks something of a stack. The others concern handles only. -/
def asks : Step α → Bool
  | .prepare _ | .run _ | .block _ | .throwing _ | .describe => true
  | .new | .build _ | .share | .use _ | .drop _ => false

/-- The answer of a step as far as it is about a stack, so not the number of a new handle. -/
def onStack? (step : Step α) (a : Answer α) : Option (Answer α) :=
  match step with
  | .run _ | .block _ | .throwing _ | .describe => some a
  | .new | .build _ | .prepare _ | .share | .use _ | .drop _ => none

def alone [Item α] (s : Stack α) (step : Step α) : Outcome (Stack α) (Option (Answer α)) where
  state := s.after step.commands
  answer :=
    match step with
    | .run c => some (.ran (s.perform c).answer)
    | .block cs => some (.block ((s.outcomes cs).map (·.answer)))
    | .throwing _ => some .thrown
    | .describe => some (.text (Describe.record "SharedViewStack" [
        ("inner", Describe.record "Mutex" [("data", CountedStack.describe s)])]))
    | .new | .build _ | .prepare _ | .share | .use _ | .drop _ => none
  events := (s.outcomes step.commands).flatMap (·.events)

end Step

/-- What a run of a pool does with one of its stacks: the stack after each step that asks something of
it, with the answer and the events of the step. -/
def dealings [Item α] (p : Pool α) (steps : List (Step α)) (stack : Nat) :
    List (Outcome (Stack α) (Option (Answer α))) :=
  (steps.zip (p.outcomes steps)).filterMap fun (step, o) =>
    if step.asks && o.state.target == stack then
      some ⟨o.state.active, step.onStack? o.answer, o.events⟩
    else none

structure Handle where
  /-- The stack that the handle was made for, also after it is dropped. -/
  stack : Nat
  held : Bool := true

def Handle.leadsTo (h : Handle) : Option Nat := if h.held then some h.stack else none

structure Account (α : Type) where
  start : Stack α
  steps : List (Step α) := []

namespace Account

def enter (a : Account α) (step : Step α) : Account α := { a with steps := a.steps ++ [step] }

variable [Item α]

def stack (a : Account α) : Stack α := a.start.after (a.steps.flatMap Step.commands)

def outcomes (a : Account α) : List (Outcome (Stack α) (Option (Answer α))) :=
  trace Step.alone a.start a.steps

end Account

structure Ledger (α : Type) where
  handles : List Handle
  current : Nat
  accounts : List (Account α)

namespace Ledger

def start : Ledger α := ⟨[⟨0, true⟩], 0, [{ start := {} }]⟩

def subject (l : Ledger α) : Nat := (l.handles[l.current]?).elim 0 Handle.stack

def holds (l : Ledger α) (handle : Nat) : Bool := (l.handles[handle]?).any Handle.held

def opened (l : Ledger α) (s : Stack α) : Ledger α where
  handles := l.handles ++ [⟨l.accounts.length, true⟩]
  current := l.handles.length
  accounts := l.accounts ++ [{ start := s }]

def share (l : Ledger α) : Ledger α :=
  { l with handles := l.handles ++ [⟨l.subject, true⟩], current := l.handles.length }

def use (l : Ledger α) (handle : Nat) : Ledger α :=
  if l.holds handle then { l with current := handle } else l

def drop (l : Ledger α) (handle : Nat) : Ledger α :=
  if handle ≠ l.current ∧ l.holds handle then
    { l with handles := l.handles.modify handle fun h => { h with held := false } }
  else l

def follow (l : Ledger α) : Step α → Ledger α
  | .new | .prepare _ => l.opened {}
  | .build settings =>
    match settings.build with
    | .ok s => l.opened s
    | .error _ => l
  | .share => l.share
  | .use handle => l.use handle
  | .drop handle => l.drop handle
  | .run _ | .block _ | .throwing _ | .describe => l

def enter (l : Ledger α) (step : Step α) : Ledger α :=
  { l with accounts := l.accounts.modify l.subject (·.enter step) }

def note (l : Ledger α) (step : Step α) : Ledger α :=
  if step.asks then (l.follow step).enter step else l.follow step

def after (l : Ledger α) (steps : List (Step α)) : Ledger α := steps.foldl note l

def outcomes [Item α] (l : Ledger α) (stack : Nat) : List (Outcome (Stack α) (Option (Answer α))) :=
  (l.accounts[stack]?).elim [] Account.outcomes

end Ledger

end CountedStack.Pool
