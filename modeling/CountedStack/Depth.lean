import CountedStack.Outcome
import CountedStack.Item

/-! A counter that stops at either end of its range, independent of what it counts. -/

namespace CountedStack

structure Depth where
  value : Count := Count.ofInt 0
deriving DecidableEq

namespace Depth

/-- The counter moved by `n`, as far as its range allows. -/
def add (d : Depth) (n : Int) : Depth := ⟨Count.ofInt (d.value.val + n)⟩

def increment (d : Depth) : Depth := d.add 1

def subtract (d : Depth) (n : Int) : Depth := d.add (-n)

def decrement (d : Depth) : Depth := d.subtract 1

theorem value_add (d : Depth) (n : Int) :
    (d.add n).value.val = max (-0x8000000000000000) (min (d.value.val + n) 0x7fffffffffffffff) := rfl

def record : Json.Record (Option Count) Depth where
  fields := [.of "value" id (fun _ n => some n) Snapshot.read]
  empty := none
  build := Option.map Depth.mk
  expected := "struct Depth with 1 element"

instance : Snapshot Depth where
  write d := Json.writeObject [("value", Snapshot.write d.value)]
  read := record.read

instance : Describe Depth := ⟨fun d => Describe.record "Depth" [("value", describe d.value)]⟩

inductive Command where
  | get
  | increment
  | decrement
  | subtract (n : Count)
  | assign (n : Count)
  | reset
  | json
  | restore (text : String)
  | describe
  | equals (n : Count)

inductive Answer where
  | done
  | value (n : Count)
  | text (t : String)
  | flag (b : Bool)
  | unreadable (flaw : Json.Flaw)
deriving DecidableEq

/-- Carries out a command. A text that cannot be read changes nothing, and nothing is logged. -/
def perform (d : Depth) : Command → Outcome Depth Answer
  | .get => ⟨d, .value d.value, []⟩
  | .increment => ⟨d.increment, .value d.increment.value, []⟩
  | .decrement => ⟨d.decrement, .value d.decrement.value, []⟩
  | .subtract n => ⟨d.subtract n, .value (d.subtract n).value, []⟩
  | .assign n => ⟨⟨n⟩, .done, []⟩
  | .reset => ⟨{}, .done, []⟩
  | .json => ⟨d, .text (Snapshot.toJson d), []⟩
  | .restore text =>
    match Snapshot.ofJson text with
    | .ok d' => ⟨d', .done, []⟩
    | .error flaw => ⟨d, .unreadable flaw, []⟩
  | .describe => ⟨d, .text (describe d), []⟩
  | .equals n => ⟨d, .flag (d = ⟨n⟩), []⟩

end Depth

end CountedStack
