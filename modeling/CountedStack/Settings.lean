import CountedStack.Stack

/-! The settings that a new stack is built from. The room asked for has no effect on the stack. -/

namespace CountedStack

/-- A number of items to make room for: the unsigned 64-bit integers. -/
abbrev Capacity := Bounded 0 0xffffffffffffffff

structure Settings where
  capacity : Capacity := Bounded.clamp 0
  name : String := Stack.defaultName
deriving DecidableEq

structure CapacityOverflow where
deriving DecidableEq

def CapacityOverflow.message (_ : CapacityOverflow) : String := "capacity overflow"

namespace Settings

/-- An empty stack with these settings. A capacity from 2^63 on is refused, since an item takes a byte or more.
A smaller one whose items take 2^63 bytes or more together is left out: here it counts as one that fits. -/
def build {α : Type} (s : Settings) : Except CapacityOverflow (Stack α) :=
  if s.capacity.val < 0x8000000000000000 then .ok { name := s.name } else .error {}

structure Draft where
  capacity : Option Capacity := none
  name : Option String := none

def Draft.build (d : Draft) : Settings :=
  ⟨d.capacity.getD ({} : Settings).capacity, d.name.getD ({} : Settings).name⟩

def record : Json.Record Draft Settings where
  fields := [
    .of "initial_capacity" Draft.capacity (fun d x => { d with capacity := some x }) Snapshot.read,
    .of "name" Draft.name (fun d x => { d with name := some x }) Snapshot.read]
  empty := {}
  build d := some d.build
  expected := "struct StackConfig with 2 elements"

instance : Snapshot Settings where
  write s := Json.writeObject [
    ("initial_capacity", Snapshot.write s.capacity),
    ("name", Snapshot.write s.name)]
  read := record.read

instance : Describe Settings where
  describe s := Describe.record "StackConfig" [
    ("initial_capacity", describe s.capacity),
    ("name", describe s.name)]

inductive Command where
  | reset
  | setCapacity (n : Capacity)
  | setName (name : String)
  | restore (text : String)
  | equals (s : Settings)
  | describe

inductive Answer where
  | done
  | flag (b : Bool)
  | text (t : String)
  | unreadable (flaw : Json.Flaw)
deriving DecidableEq

/-- Carries out a command. A text that cannot be read changes nothing, and nothing is logged. -/
def perform (s : Settings) : Command → Outcome Settings Answer
  | .reset => ⟨{}, .done, []⟩
  | .setCapacity n => ⟨{ s with capacity := n }, .done, []⟩
  | .setName name => ⟨{ s with name := name }, .done, []⟩
  | .restore text =>
    match Snapshot.ofJson text with
    | .ok s' => ⟨s', .done, []⟩
    | .error flaw => ⟨s, .unreadable flaw, []⟩
  | .equals t => ⟨s, .flag (s = t), []⟩
  | .describe => ⟨s, .text (describe s), []⟩

end Settings

/-- Why a step fails that makes or selects a stack. -/
inductive Failure where
  | overflow (e : CapacityOverflow)
  | unreadable (flaw : Json.Flaw)
  | noSuchSlot
deriving DecidableEq

def Failure.message : Failure → Option String
  | .overflow e => some e.message
  | .unreadable flaw => flaw.message
  | .noSuchSlot => none

end CountedStack
