import CountedStack.Command
import CountedStack.Settings

/-! Stacks in numbered slots, one of them current. Each is a value of its own. -/

namespace CountedStack

structure Session (α : Type) where
  slots : List (Stack α)
  current : Nat
  current_lt : current < slots.length

namespace Session

inductive Step (α : Type) where
  | new
  | withCapacity (n : Capacity)
  | build (s : Settings)
  | restore (text : String)
  | copy
  | use (slot : Nat)
  | equals (slot : Nat)
  | run (c : Command α)

inductive Answer (α : Type) where
  | made (slot : Nat)
  | done
  | flag (b : Bool)
  | ran (a : CountedStack.Answer α)
  | failed (f : Failure)

variable {α : Type}

def start : Session α := ⟨[{}], 0, Nat.zero_lt_one⟩

def active (s : Session α) : Stack α := s.slots.get ⟨s.current, s.current_lt⟩

def update (s : Session α) (x : Stack α) : Session α where
  slots := s.slots.set s.current x
  current := s.current
  current_lt := by simpa using s.current_lt

def add (s : Session α) (x : Stack α) : Session α where
  slots := s.slots ++ [x]
  current := s.slots.length
  current_lt := by simp

def make (s : Session α) (x : Stack α) : Outcome (Session α) (Answer α) :=
  ⟨s.add x, .made s.slots.length, []⟩

def fail (s : Session α) (f : Failure) : Outcome (Session α) (Answer α) := ⟨s, .failed f, []⟩

def makeFrom (s : Session α) (settings : Settings) : Outcome (Session α) (Answer α) :=
  match settings.build with
  | .ok x => s.make x
  | .error e => s.fail (.overflow e)

def perform [Item α] (s : Session α) : Step α → Outcome (Session α) (Answer α)
  | .new => s.make {}
  | .withCapacity n => s.makeFrom { capacity := n }
  | .build settings => s.makeFrom settings
  | .restore text =>
    match Snapshot.ofJson text with
    | .ok x => s.make x
    | .error flaw => s.fail (.unreadable flaw)
  | .copy => s.make s.active
  | .use slot =>
    if h : slot < s.slots.length then ⟨⟨s.slots, slot, h⟩, .done, []⟩ else s.fail .noSuchSlot
  | .equals slot =>
    match s.slots[slot]? with
    | some x => ⟨s, .flag (s.active == x), []⟩
    | none => s.fail .noSuchSlot
  | .run c =>
    let o := s.active.perform c
    ⟨s.update o.state, .ran o.answer, o.events⟩

abbrev after [Item α] (s : Session α) (steps : List (Step α)) : Session α :=
  stateAfter perform s steps

abbrev outcomes [Item α] (s : Session α) (steps : List (Step α)) : List (Outcome (Session α) (Answer α)) :=
  trace perform s steps

end Session

end CountedStack
