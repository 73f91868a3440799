import CountedStack.Command
import CountedStack.Settings

/-!
Stacks that are reached through handles, each behind a lock. Of the lock it is assumed that a step holds it from
beginning to end, and that it is released and stays usable when a block of commands throws: what the block did so
far is then kept.
-/

namespace CountedStack

structure Pool (α : Type) where
  store : List (Stack α)
  /-- The stack that each handle leads to; none once it is dropped. -/
  handles : List (Option Nat)
  current : Nat
  target : Nat
  selected : handles[current]? = some (some target)
  bounded : ∀ i, some i ∈ handles → i < store.length

namespace Pool

inductive Step (α : Type) where
  | new
  | build (s : Settings)
  /-- A handle of a stack that starts with the given commands. -/
  | prepare (cs : List (Command α))
  | share
  | use (handle : Nat)
  /-- Gives up a handle other than the current one. -/
  | drop (handle : Nat)
  | run (c : Command α)
  /-- Commands that nothing else comes between. -/
  | block (cs : List (Command α))
  /-- A block that throws at its end. -/
  | throwing (cs : List (Command α))
  | describe

def Step.commands {α : Type} : Step α → List (Command α)
  | .run c => [c]
  | .prepare cs | .block cs | .throwing cs => cs
  | .new | .build _ | .share | .use _ | .drop _ | .describe => []

inductive Answer (α : Type) where
  | made (handle : Nat)
  | done
  | ran (a : CountedStack.Answer α)
  | block (as : List (CountedStack.Answer α))
  | thrown
  | text (t : String)
  | failed (f : Failure)

def thrownMessage : String := "thrown"

variable {α : Type}

def start : Pool α where
  store := [{}]
  handles := [some 0]
  current := 0
  target := 0
  selected := rfl
  bounded := by simp

theorem target_lt (p : Pool α) : p.target < p.store.length :=
  p.bounded _ (List.mem_of_getElem? p.selected)

def active (p : Pool α) : Stack α := p.store.get ⟨p.target, p.target_lt⟩

def update (p : Pool α) (s : Stack α) : Pool α :=
  { p with
    store := p.store.set p.target s
    bounded := by simpa using p.bounded }

theorem getElem?_target (p : Pool α) : p.store[p.target]? = some p.active :=
  List.getElem?_eq_getElem p.target_lt

@[simp] theorem active_update (p : Pool α) (s : Stack α) : (p.update s).active = s := by
  simp [active, update]

theorem update_active (p : Pool α) : p.update p.active = p := by
  simp [active, update]

/-- Appends a stack and a handle of it, which becomes the current one. -/
def add (p : Pool α) (s : Stack α) : Pool α where
  store := p.store ++ [s]
  handles := p.handles ++ [some p.store.length]
  current := p.handles.length
  target := p.store.length
  selected := by simp
  bounded i h := by
    rcases List.mem_append.1 h with h | h
    · have := p.bounded i h
      simp
      omega
    · simp_all

@[simp] theorem active_add (p : Pool α) (s : Stack α) : (p.add s).active = s := by
  simp [active, add]

theorem update_add (p : Pool α) (s t : Stack α) : (p.add s).update t = p.add t := by
  simp [update, add]

def addHandle (p : Pool α) : Pool α :=
  { p with
    handles := p.handles ++ [some p.target]
    current := p.handles.length
    selected := by simp
    bounded := fun i h => by
      rcases List.mem_append.1 h with h | h
      · exact p.bounded i h
      · have := p.target_lt
        simp_all }

def make (p : Pool α) (s : Stack α) (events : List Event) : Outcome (Pool α) (Answer α) :=
  ⟨p.add s, .made p.handles.length, events⟩

def fail (p : Pool α) (f : Failure) : Outcome (Pool α) (Answer α) := ⟨p, .failed f, []⟩

def select (p : Pool α) (handle : Nat) : Outcome (Pool α) (Answer α) :=
  match h : p.handles[handle]? with
  | some (some target) => ⟨{ p with current := handle, target := target, selected := h }, .done, []⟩
  | _ => p.fail .noSuchSlot

def dropHandle (p : Pool α) (handle : Nat) : Outcome (Pool α) (Answer α) :=
  if h : handle ≠ p.current ∧ (p.handles[handle]?.join).isSome then
    { state :=
        { p with
          handles := p.handles.set handle none
          selected := by rw [List.getElem?_set_ne h.1]; exact p.selected
          bounded := fun i hi => by
            rcases List.mem_or_eq_of_mem_set hi with hi | hi
            · exact p.bounded i hi
            · cases hi }
      answer := .done }
  else p.fail .noSuchSlot

def describeHandle [Describe α] (p : Pool α) : String :=
  Describe.record "SharedViewStack" [
    ("inner", Describe.record "Mutex" [("data", CountedStack.describe p.active)])]

def perform [Item α] (p : Pool α) : Step α → Outcome (Pool α) (Answer α)
  | .new => p.make {} []
  | .build settings =>
    match settings.build with
    | .ok s => p.make s []
    | .error e => p.fail (.overflow e)
  | .prepare cs =>
    let o := ({} : Stack α).performAll cs
    p.make o.state o.events
  | .share => ⟨p.addHandle, .made p.handles.length, []⟩
  | .use handle => p.select handle
  | .drop handle => p.dropHandle handle
  | .run c =>
    let o := p.active.perform c
    ⟨p.update o.state, .ran o.answer, o.events⟩
  | .block cs =>
    let o := p.active.performAll cs
    ⟨p.update o.state, .block o.answer, o.events⟩
  | .throwing cs =>
    let o := p.active.performAll cs
    ⟨p.update o.state, .thrown, o.events⟩
  | .describe => ⟨p, .text p.describeHandle, []⟩

abbrev after [Item α] (p : Pool α) (steps : List (Step α)) : Pool α := stateAfter perform p steps

abbrev outcomes [Item α] (p : Pool α) (steps : List (Step α)) : List (Outcome (Pool α) (Answer α)) :=
  trace perform p steps

/-- What each handle leads to, nothing for one that was dropped. -/
def view (p : Pool α) : List (Option (Stack α)) := p.handles.map fun h => h.bind (p.store[·]?)

end Pool

end CountedStack
