import CountedStack.Operation

/-! Everything that can be asked of one stack, as data, and runs of such commands. -/

namespace CountedStack

inductive Command (α : Type) where
  | push (x : α)
  | offer (x : Option α)
  | pop
  | top
  | size
  | isEmpty
  | depth
  | name
  | clear
  | bottomUp
  | topDown
  | call (name : String) (arg : Option α)
  /-- A command on the counter alone, by the owner of the stack. -/
  | counter (c : Depth.Command)
  | json
  | describe

inductive Answer (α : Type) where
  | done
  | item (x : Option α)
  | count (n : Int)
  | flag (b : Bool)
  | text (t : String)
  | items (xs : List α)
  | reply (r : Except UnknownOperation (Reply α))
  | counter (a : Depth.Answer)

namespace Stack

variable {α : Type} [Item α]

def perform (s : Stack α) : Command α → Outcome (Stack α) (Answer α)
  | .push x => (s.push x).map .item
  | .offer x => (s.offer x).map .item
  | .pop => s.pop.map .item
  | .top => ⟨s, .item s.top?, []⟩
  | .size => ⟨s, .count s.size, []⟩
  | .isEmpty => ⟨s, .flag s.isEmpty, []⟩
  | .depth => ⟨s, .count s.depth.value.val, []⟩
  | .name => ⟨s, .text s.name, []⟩
  | .clear => s.clear.map fun _ => .done
  | .bottomUp => ⟨s, .items s.bottomUp, []⟩
  | .topDown => ⟨s, .items s.topDown, []⟩
  | .call name arg => (Operation.call s name arg).map .reply
  | .counter c =>
    let o := s.depth.perform c
    ⟨{ s with depth := o.state }, .counter o.answer, []⟩
  | .json => ⟨s, .text (Snapshot.toJson s), []⟩
  | .describe => ⟨s, .text (CountedStack.describe s), []⟩

abbrev after (s : Stack α) (cs : List (Command α)) : Stack α := stateAfter perform s cs

abbrev outcomes (s : Stack α) (cs : List (Command α)) : List (Outcome (Stack α) (Answer α)) :=
  trace perform s cs

/-- A list of commands as one step: what they answer one after the other, and all that they log. -/
def performAll (s : Stack α) (cs : List (Command α)) : Outcome (Stack α) (List (Answer α)) where
  state := s.after cs
  answer := (s.outcomes cs).map (·.answer)
  events := (s.outcomes cs).flatMap (·.events)

theorem name_perform (s : Stack α) (c : Command α) : (s.perform c).state.name = s.name := by
  cases c <;> try rfl
  case push x =>
    simp only [perform, push, Outcome.map]
    split <;> rfl
  case offer x => cases x <;> rfl
  case pop =>
    simp only [perform, pop, Outcome.map]
    split <;> rfl
  case call name arg =>
    simp only [perform, Outcome.map, Operation.call]
    split
    · rename_i op _
      rcases op with ⟨_ | x⟩ | _ | _ | _ | _ <;> try rfl
      · simp only [Operation.run, push, Outcome.map]
        split <;> rfl
      · simp only [Operation.run, pop, Outcome.map]
        split <;> rfl
    · rfl

theorem name_after (s : Stack α) (cs : List (Command α)) : (s.after cs).name = s.name := by
  induction cs generalizing s with
  | nil => rfl
  | cons c cs ih => exact (ih (s.perform c).state).trans (s.name_perform c)

end Stack

variable {α : Type}

/-- The item of an answer, whether given directly or as a reply. -/
def Answer.item? : Answer α → Option α
  | .item x => x
  | .reply (.ok (.item x)) => some x
  | _ => none

def Command.isPush : Command α → Bool
  | .push _ | .offer _ => true
  | .call called _ => called = "push"
  | _ => false

def Command.isPop : Command α → Bool
  | .pop => true
  | .call called _ => called = "pop"
  | _ => false

/-- How many of the commands that `sort` picks answer an item, in a run that starts from `s`. -/
def Stack.successes [Item α] (sort : Command α → Bool) (s : Stack α) : List (Command α) → Nat
  | [] => 0
  | c :: cs =>
    let o := s.perform c
    (if sort c && o.answer.item?.isSome then 1 else 0) + successes sort o.state cs

end CountedStack
