import CountedStack.Command

/-!
To push an item is to ask whether it is absent, to offer one is to ask whether it is there. For options the two
questions are one.
-/

namespace CountedStack

section Map

variable {σ τ ι β γ α : Type}

def Outcome.bimap (f : σ → τ) (g : β → γ) (o : Outcome σ β) : Outcome τ γ := ⟨f o.state, g o.answer, o.events⟩

theorem trace_bimap {step : σ → ι → Outcome σ β} {step' : τ → ι → Outcome τ γ} {f : σ → τ} {g : β → γ}
    (h : ∀ s x, step' (f s) x = (step s x).bimap f g) (s : σ) (xs : List ι) :
    trace step' (f s) xs = (trace step s xs).map (Outcome.bimap f g) := by
  induction xs generalizing s with
  | nil => rfl
  | cons x xs ih =>
    have later := ih (step s x).state
    simp only [trace, List.map_cons, h]
    exact congrArg _ later

def Reply.map (f : α → β) : Reply α → Reply β
  | .item x => .item (f x)
  | .int n => .int n
  | .nil => .nil

def Answer.map (f : α → β) : Answer α → Answer β
  | .done => .done
  | .item x => .item (x.map f)
  | .count n => .count n
  | .flag b => .flag b
  | .text t => .text t
  | .items xs => .items (xs.map f)
  | .reply r => .reply (r.map (Reply.map f))
  | .counter a => .counter a

def Stack.map (f : α → β) (s : Stack α) : Stack β := ⟨s.name, s.items.map f, s.depth⟩

@[simp] theorem Stack.size_map (f : α → β) (s : Stack α) : (s.map f).size = s.size := List.length_map f

end Map

variable {α ι : Type}

/-- What can be asked of a stack whatever its items are, where `ι` is what it is given to put on. -/
inductive Request (ι : Type) where
  | put (x : ι)
  | pop
  | top
  | size
  | isEmpty
  | depth
  | name
  | clear
  | bottomUp
  | topDown
  | counter (c : Depth.Command)

namespace Request

/-- Carries out a request on a stack to which items come by way of `put`. -/
def perform (put : Stack α → ι → Outcome (Stack α) (Option α)) (s : Stack α) :
    Request ι → Outcome (Stack α) (Answer α)
  | .put x => (put s x).map .item
  | .pop => s.pop.map .item
  | .top => ⟨s, .item s.top?, []⟩
  | .size => ⟨s, .count s.size, []⟩
  | .isEmpty => ⟨s, .flag s.isEmpty, []⟩
  | .depth => ⟨s, .count s.depth.value.val, []⟩
  | .name => ⟨s, .text s.name, []⟩
  | .clear => s.clear.map fun _ => .done
  | .bottomUp => ⟨s, .items s.bottomUp, []⟩
  | .topDown => ⟨s, .items s.topDown, []⟩
  | .counter c =>
    let o := s.depth.perform c
    ⟨{ s with depth := o.state }, .counter o.answer, []⟩

def command (put : ι → Command α) : Request ι → Command α
  | .put x => put x
  | .pop => .pop
  | .top => .top
  | .size => .size
  | .isEmpty => .isEmpty
  | .depth => .depth
  | .name => .name
  | .clear => .clear
  | .bottomUp => .bottomUp
  | .topDown => .topDown
  | .counter c => .counter c

theorem outcomes_command [Item α] {put : Stack α → ι → Outcome (Stack α) (Option α)} {asked : ι → Command α}
    (h : ∀ (s : Stack α) x, s.perform (asked x) = (put s x).map .item) (s : Stack α) (rs : List (Request ι)) :
    s.outcomes (rs.map (command asked)) = trace (perform put) s rs := by
  have one (s : Stack α) (r : Request ι) : s.perform (r.command asked) = perform put s r := by
    cases r with
    | put x => exact h s x
    | _ => rfl
  induction rs generalizing s with
  | nil => rfl
  | cons r rs ih => simp only [List.map_cons, Stack.outcomes, trace, one, ih]

end Request

namespace Stack

theorem push_map_some (s : Stack α) (x : Option α) :
    (s.map some).push x = (s.offer x).bimap (Stack.map some) (Option.map some) := by
  cases x <;> rfl

theorem pop_map (f : α → ι) (s : Stack α) : (s.map f).pop = s.pop.bimap (Stack.map f) (Option.map f) := by
  obtain ⟨name, items, depth⟩ := s
  cases items <;> rfl

theorem clear_map (f : α → ι) (s : Stack α) : (s.map f).clear = s.clear.bimap (Stack.map f) id := by
  simp only [clear, size_map]
  rfl

theorem top?_map (f : α → ι) (s : Stack α) : (s.map f).top? = s.top?.map f := List.head?_map

theorem isEmpty_map (f : α → ι) (s : Stack α) : (s.map f).isEmpty = s.isEmpty := List.isEmpty_map

theorem bottomUp_map (f : α → ι) (s : Stack α) : (s.map f).bottomUp = s.bottomUp.map f := List.map_reverse.symm

theorem perform_map_some (s : Stack α) (r : Request (Option α)) :
    Request.perform push (s.map some) r = (Request.perform offer s r).bimap (Stack.map some) (Answer.map some) := by
  cases r with
  | put x =>
    simp only [Request.perform, push_map_some]
    rfl
  | pop =>
    simp only [Request.perform, pop_map]
    rfl
  | clear =>
    simp only [Request.perform, clear_map]
    rfl
  | top | size | isEmpty | bottomUp =>
    simp only [Request.perform, top?_map, size_map, isEmpty_map, bottomUp_map]
    rfl
  | depth | name | topDown | counter c => rfl

/-- Pushing options on a stack of options is offering them to a stack of the items. At every step the
items of the one are those of the other wrapped by `some`, so is every item in an answer, and name, depth
and events are the same; an item stays on even if it is absent. With an empty stack on one side the other
starts empty, too. The runs are those of the commands, where there are commands. -/
theorem trace_push_some (s : Stack α) (rs : List (Request (Option α))) :
    trace (Request.perform push) (s.map some) rs =
        (trace (Request.perform offer) s rs).map (Outcome.bimap (Stack.map some) (Answer.map some)) ∧
      (∀ o ∈ trace (Request.perform push) (s.map some) rs, none ∉ o.state.items) ∧
      ∀ [Item α],
        (s.map some).outcomes (rs.map (Request.command .push)) = trace (Request.perform push) (s.map some) rs ∧
          s.outcomes (rs.map (Request.command .offer)) = trace (Request.perform offer) s rs := by
  have wrapped := trace_bimap perform_map_some s rs
  refine ⟨wrapped, ?_, ?_⟩
  · intro o done
    rw [wrapped] at done
    obtain ⟨inner, _, rfl⟩ := List.mem_map.mp done
    simp [Outcome.bimap, map]
  · intro _
    exact ⟨Request.outcomes_command (fun _ _ => rfl) _ rs, Request.outcomes_command (fun _ _ => rfl) s rs⟩

/-- Zero is absent, but wrapped it is not. -/
theorem trace_push_some_zero :
    let zero := Count.ofInt 0
    let rs : List (Request (Option Count)) := [.put (some zero), .put none, .pop, .pop]
    let start : Stack (Option Count) := { name := "s" }
    let o := Request.perform push start (.put (some zero))
    o ∈ trace (Request.perform push) start rs ∧ none ∉ o.state.items ∧ o.state.items = [some zero] ∧
      trace (Request.perform push) start rs =
        (trace (Request.perform offer) ({ name := "s" } : Stack Count) rs).map
          (Outcome.bimap (Stack.map some) (Answer.map some)) := by
  intro zero rs start o
  obtain ⟨wrapped, present, _⟩ := trace_push_some ({ name := "s" } : Stack Count) rs
  have first : o ∈ trace (Request.perform push) start rs := List.mem_cons_self
  exact ⟨first, present o first, rfl, wrapped⟩

end Stack

end CountedStack
