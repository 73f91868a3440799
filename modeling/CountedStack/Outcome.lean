import CountedStack.Log

/-! Steps, and runs of them over lists of requests. -/

namespace CountedStack

variable {σ ι β γ : Type}

/-- The result of a step: the state after it, what it answers and what it logs. -/
structure Outcome (σ β : Type) where
  state : σ
  answer : β
  events : List Event := []

namespace Outcome

def map (f : β → γ) (o : Outcome σ β) : Outcome σ γ := ⟨o.state, f o.answer, o.events⟩

def log (name : String) (o : Outcome σ β) : List Line := o.events.map (Event.line name)

end Outcome

def stateAfter (step : σ → ι → Outcome σ β) (s : σ) (requests : List ι) : σ :=
  requests.foldl (fun s x => (step s x).state) s

def trace (step : σ → ι → Outcome σ β) (s : σ) : List ι → List (Outcome σ β)
  | [] => []
  | x :: xs => step s x :: trace step (step s x).state xs

theorem stateAfter_append (step : σ → ι → Outcome σ β) (s : σ) (xs ys : List ι) :
    stateAfter step s (xs ++ ys) = stateAfter step (stateAfter step s xs) ys :=
  List.foldl_append ..

theorem trace_append (step : σ → ι → Outcome σ β) (s : σ) (xs ys : List ι) :
    trace step s (xs ++ ys) = trace step s xs ++ trace step (stateAfter step s xs) ys := by
  induction xs generalizing s with
  | nil => rfl
  | cons x xs ih =>
    simp only [List.cons_append, trace, ih]
    rfl

theorem exists_of_mem_trace {step : σ → ι → Outcome σ β} {s : σ} {xs : List ι} {o : Outcome σ β}
    (h : o ∈ trace step s xs) :
    ∃ before x since, xs = before ++ x :: since ∧ o = step (stateAfter step s before) x := by
  induction xs generalizing s with
  | nil => cases h
  | cons x xs ih =>
    rcases List.mem_cons.mp h with rfl | later
    · exact ⟨[], x, xs, rfl, rfl⟩
    · obtain ⟨before, y, since, rfl, done⟩ := ih later
      exact ⟨x :: before, y, since, rfl, done⟩

theorem length_trace (step : σ → ι → Outcome σ β) (s : σ) (xs : List ι) :
    (trace step s xs).length = xs.length := by
  induction xs generalizing s with
  | nil => rfl
  | cons x xs ih => simp only [trace, List.length_cons, ih]

end CountedStack
