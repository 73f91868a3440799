import CountedStack.Proofs.Accounting

/-! A call by name does what the operation of that name does when it is asked for directly. -/

namespace CountedStack

variable {α : Type} [Item α]

structure Call (α : Type) where
  name : String
  arg : Option α

/-- The reply to a call whose direct counterpart answers `a`. -/
def Answer.asReply : Answer α → Reply α
  | .item (some x) => .item x
  | .count n => .int n
  | _ => .nil

namespace Call

def perform (s : Stack α) (c : Call α) : Outcome (Stack α) (Except UnknownOperation (Reply α)) :=
  Operation.call s c.name c.arg

def direct? (c : Call α) : Option (Command α) :=
  if c.name = "push" then c.arg.map .push
  else if c.name = "pop" then some .pop
  else if c.name = "current" then some .top
  else if c.name = "depth" then some .depth
  else if c.name = "len" then some .size
  else none

def performDirectly (s : Stack α) (c : Call α) : Outcome (Stack α) (Except UnknownOperation (Reply α)) :=
  match c.direct? with
  | some d => (s.perform d).map fun a => .ok a.asReply
  | none => ⟨s, if c.name = "push" then .ok .nil else .error ⟨c.name⟩, []⟩

variable (s : Stack α) (c : Call α)

omit [Item α] in
theorem asReply_item (x : Option α) : (Answer.item x).asReply = .ofOption x := by
  cases x <;> rfl

theorem perform_eq_performDirectly : c.perform s = c.performDirectly s := by
  obtain ⟨name, arg⟩ := c
  unfold perform Operation.call performDirectly
  rcases Operation.ofName_cases name arg with
    ⟨rfl, found⟩ | ⟨rfl, found⟩ | ⟨rfl, found⟩ | ⟨rfl, found⟩ | ⟨rfl, found⟩ | ⟨unknown, found⟩
  · cases arg with
    | none => simp [found, direct?, Operation.run, Outcome.map]
    | some x => simp [found, direct?, Operation.run, Stack.perform, Outcome.map, asReply_item]
  · simp [found, direct?, Operation.run, Stack.perform, Outcome.map, asReply_item]
  · simp [found, direct?, Operation.run, Stack.perform, Outcome.map, asReply_item]
  · simp [found, direct?, Operation.run, Stack.perform, Outcome.map, Answer.asReply]
  · simp [found, direct?, Operation.run, Stack.perform, Outcome.map, Answer.asReply]
  · have none : direct? (⟨name, arg⟩ : Call α) = none := by simp_all [direct?, Operation.names]
    have other : name ≠ "push" := by simp_all [Operation.names]
    simp [found, none, other]

theorem perform_of_direct {d : Command α} (direct : c.direct? = some d) :
    c.perform s = (s.perform d).map fun a => .ok a.asReply := by
  rw [perform_eq_performDirectly, performDirectly, direct]

theorem state_perform : (c.perform s).state = s.after c.direct?.toList := by
  rw [perform_eq_performDirectly]
  unfold performDirectly
  cases c.direct? <;> rfl

/-- A call answers nil where its counterpart finds nothing: an absent item or none to push, or an empty
stack. -/
theorem answer_eq_nil_iff :
    (c.perform s).answer = .ok .nil ↔ (c.name = "push" ∧ c.arg.all isAbsent = true) ∨
      ((c.name = "pop" ∨ c.name = "current") ∧ s.isEmpty = true) := by
  obtain ⟨name, arg⟩ := c
  have nil (x : Option α) : Reply.ofOption x = .nil ↔ x = none := by cases x <;> simp [Reply.ofOption]
  have top : s.top? = none ↔ s.isEmpty = true := by simp [Stack.top?, Stack.isEmpty]
  unfold perform Operation.call
  rcases Operation.ofName_cases name arg with
    ⟨rfl, found⟩ | ⟨rfl, found⟩ | ⟨rfl, found⟩ | ⟨rfl, found⟩ | ⟨rfl, found⟩ | ⟨unknown, found⟩
  · cases arg with
    | none => simp [found, Operation.run, Outcome.map]
    | some x =>
      have pushed : (s.push x).answer = none ↔ isAbsent x = true := by
        unfold Stack.push
        split <;> simp_all [Stack.ignorePush, Stack.place]
      simp [found, Operation.run, Outcome.map, nil, pushed]
  · simp [found, Operation.run, Outcome.map, nil, s.pop_apply.2, Stack.answered, top]
  · simp [found, Operation.run, nil, Outcome.map, top]
  · simp [found, Operation.run, Outcome.map]
  · simp [found, Operation.run, Outcome.map]
  · simp_all [Operation.names]

end Call

variable (s : Stack α) (calls : List (Call α))

theorem stateAfter_calls : stateAfter Call.perform s calls = s.after (calls.filterMap Call.direct?) := by
  induction calls generalizing s with
  | nil => rfl
  | cons c calls ih =>
    have step : stateAfter Call.perform s (c :: calls) = stateAfter Call.perform (c.perform s).state calls :=
      rfl
    rw [step, ih, c.state_perform, ← Stack.after_append, List.filterMap_cons]
    cases c.direct? <;> rfl

theorem outcomes_filterMap_direct :
    (calls.zip (trace Call.perform s calls)).filterMap (fun (c, o) => c.direct?.map fun _ => o) =
      (s.outcomes (calls.filterMap Call.direct?)).map (·.map fun a => .ok a.asReply) := by
  induction calls generalizing s with
  | nil => rfl
  | cons c calls ih =>
    have rest := ih (c.perform s).state
    have state := c.state_perform s
    simp only [trace, List.zip_cons_cons, List.filterMap_cons]
    rw [rest]
    cases direct : c.direct? with
    | none =>
      -- the rest starts where this call did
      rw [direct] at state
      rw [state]
      rfl
    | some d =>
      rw [c.perform_of_direct s direct]
      rfl

/-- Step by step, calls by name have the states, the events and the answers of their direct counterparts.
The calls that have one run as if there were no others. -/
theorem trace_calls :
    trace Call.perform s calls = trace Call.performDirectly s calls ∧
      stateAfter Call.perform s calls = s.after (calls.filterMap Call.direct?) ∧
      (calls.zip (trace Call.perform s calls)).filterMap (fun (c, o) => c.direct?.map fun _ => o) =
        (s.outcomes (calls.filterMap Call.direct?)).map (·.map fun a => .ok a.asReply) ∧
      ∀ (t : Stack α) (c : Call α), (c.perform t).answer = .ok .nil ↔
        (c.name = "push" ∧ c.arg.all isAbsent = true) ∨
          ((c.name = "pop" ∨ c.name = "current") ∧ t.isEmpty = true) := by
  have same : (Call.perform : Stack α → Call α → _) = Call.performDirectly :=
    funext₂ Call.perform_eq_performDirectly
  exact ⟨by rw [same], stateAfter_calls s calls, outcomes_filterMap_direct s calls, Call.answer_eq_nil_iff⟩

end CountedStack
