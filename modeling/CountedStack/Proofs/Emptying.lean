import CountedStack.Proofs.Accounting
import CountedStack.Proofs.Equality

namespace CountedStack

/-- A counter that only goes down may go in steps of any size. -/
theorem Depth.subtract_subtract (d : Depth) (m n : Nat) : (d.subtract m).subtract n = d.subtract (m + n : Nat) := by
  have value : ((d.subtract m).subtract n).value.val = (d.subtract (m + n : Nat)).value.val := by
    have top := d.value.le_hi
    simp only [subtract, value_add]
    omega
  calc (d.subtract m).subtract n
      = ⟨((d.subtract m).subtract n).value⟩ := rfl
    _ = ⟨(d.subtract (m + n : Nat)).value⟩ := by rw [Bounded.ext value]
    _ = d.subtract (m + n : Nat) := rfl

theorem Depth.subtract_zero (d : Depth) : d.subtract 0 = d := d.add_zero

namespace Stack

variable {α : Type} [Item α]

def pops (k : Nat) : List (Command α) := List.replicate k .pop

section Pops

variable (s : Stack α)

theorem after_pops (k : Nat) :
    s.after (pops k) = { s with items := s.items.drop k, depth := s.depth.subtract (min k s.size : Nat) } := by
  induction k generalizing s with
  | zero => simp [pops, after, stateAfter, Depth.subtract_zero]
  | succ k ih =>
    obtain ⟨name, items, depth⟩ := s
    cases items with
    | nil =>
      have later := ih ⟨name, [], depth⟩
      simp only [size, List.length_nil, Nat.min_zero, List.drop_nil] at later ⊢
      exact later
    | cons x rest =>
      have later := ih ⟨name, rest, depth.decrement⟩
      have steps : (depth.decrement).subtract (min k rest.length : Nat) =
          depth.subtract (min (k + 1) (rest.length + 1) : Nat) := by
        rw [Nat.add_min_add_right, Nat.add_comm]
        exact depth.subtract_subtract 1 _
      rw [size, steps] at later
      exact later

theorem answers_pops : (s.outcomes (pops s.size)).map (·.answer) = s.topDown.map fun x => .item (some x) := by
  obtain ⟨name, items, depth⟩ := s
  induction items generalizing depth with
  | nil => rfl
  | cons x rest ih => exact congrArg (.item (some x) :: ·) (ih depth.decrement)

theorem top_answers :
    (s.perform .top).answer = .item s.bottomUp.getLast? ∧ (s.perform .pop).answer = .item s.bottomUp.getLast? ∧
      (s.perform .isEmpty).answer = .flag s.bottomUp.getLast?.isNone := by
  obtain ⟨name, items, depth⟩ := s
  cases items <;> simp [perform, top?, pop, isEmpty, bottomUp, Outcome.map]

theorem after_pops_size : s.after (pops s.size) = (s.perform .clear).state := by
  rw [after_pops, Nat.min_self, size, List.drop_length]
  rfl

end Pops

/-- As many pops as there are items answer the items from the top down, and the next pop finds nothing. The
state that they leave is the one that `clear` reaches in one step, for any depth; it is logged in one line that
never warns. At each point of the way every look at the top shows the item that the next pop takes. -/
theorem clear_eq_pops (s : Stack α) :
    let emptied := s.after (pops s.size)
    let cleared := s.perform .clear
    (s.outcomes (pops s.size)).map (·.answer) = s.topDown.map (fun x => .item (some x)) ∧
    s.topDown = s.bottomUp.reverse ∧
    ((emptied.perform .pop).answer = .item none ∧ (emptied.perform .pop).state = emptied) ∧
    (emptied = cleared.state ∧ (emptied == cleared.state) = true) ∧
    (emptied.name = s.name ∧ emptied.items = [] ∧
      emptied.depth.value.val = max (-2 ^ 63) (s.depth.value.val - s.size)) ∧
    (∀ k, let t := s.after (pops k)
      t.topDown = s.topDown.drop k ∧ (t.perform .top).answer = .item t.bottomUp.getLast? ∧
        (t.perform .pop).answer = .item t.bottomUp.getLast? ∧
        (t.perform .isEmpty).answer = .flag t.bottomUp.getLast?.isNone) ∧
    cleared.state.depth.value.val ≤ s.depth.value.val ∧
    cleared.log s.name = [⟨.trace, s.name ++ ": " ++ ("cleared " ++ Decimal.text s.size ++ " items, depth " ++
      Decimal.text cleared.state.depth.value.val)⟩] ∧
    (cleared.state.perform .clear).state = cleared.state := by
  intro emptied cleared
  have same : emptied = cleared.state := s.after_pops_size
  have value : cleared.state.depth.value.val = max (-2 ^ 63) (s.depth.value.val - s.size) := by
    have top := s.depth.value.le_hi
    show (s.depth.subtract s.size).value.val = _
    rw [Depth.subtract, Depth.value_add]
    omega
  have bottom := s.depth.value.lo_le
  refine ⟨s.answers_pops, ?_, ?_, ⟨same, ?_⟩, ⟨?_, ?_, ?_⟩, ?_, ?_, rfl, ?_⟩
  · exact (List.reverse_reverse _).symm
  · rw [same]
    exact ⟨rfl, rfl⟩
  · rw [same]
    exact cleared.state.beq_self_iff.mpr (List.forall_mem_nil _)
  · rw [same]
    rfl
  · rw [same]
    rfl
  · rw [same, value]
  · intro k t
    have left : t = { s with items := s.items.drop k, depth := _ } := s.after_pops k
    exact ⟨by rw [left]; rfl, t.top_answers⟩
  · rw [value]
    omega
  · show ({ cleared.state with depth := cleared.state.depth.subtract 0 } : Stack α) = cleared.state
    rw [Depth.subtract_zero]

end Stack

end CountedStack
