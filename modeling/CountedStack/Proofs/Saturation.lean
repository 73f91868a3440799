import CountedStack.Proofs.Accounting
import Mathlib.Algebra.Ring.Int.Defs

namespace CountedStack.Depth

/-- By how much a command moves the counter; none for a command that sets it or only looks. -/
def Command.shift? : Command → Option Int
  | .increment => some 1
  | .decrement => some (-1)
  | .subtract n => some (-n.val)
  | .get | .assign _ | .reset | .json | .restore _ | .describe | .equals _ => none

abbrev after (d : Depth) (cs : List Command) : Depth := stateAfter perform d cs

/-- What some commands move the counter by, were there no bounds. -/
def total (cs : List Command) : Int := (cs.filterMap Command.shift?).sum

theorem perform_of_shift {c : Command} {n : Int} (h : c.shift? = some n) (d : Depth) :
    (d.perform c).state = d.add n ∧ (d.perform c).answer = .value (d.add n).value := by
  cases c <;> cases h <;> exact ⟨rfl, rfl⟩

theorem total_cons {c : Command} {n : Int} (h : c.shift? = some n) (cs : List Command) :
    total (c :: cs) = n + total cs := by
  rw [total, List.filterMap_cons_some h, List.sum_cons, total]

theorem value_isCount (d : Depth) : IsCount d.value.val := ⟨d.value.lo_le, d.value.le_hi⟩

section Runs

variable {cs : List Command}

theorem after_cons {c : Command} {n : Int} (h : c.shift? = some n) (d : Depth) (cs : List Command) :
    d.after (c :: cs) = (d.add n).after cs := by
  rw [← (perform_of_shift h d).1]
  rfl

theorem value_after_of_isCount (d : Depth) (moves : ∀ c ∈ cs, c.shift?.isSome = true)
    (bounded : ∀ part, part <+: cs → IsCount (d.value.val + total part)) :
    (d.after cs).value.val = d.value.val + total cs := by
  induction cs generalizing d with
  | nil => exact (Int.add_zero _).symm
  | cons c cs ih =>
    obtain ⟨first, others⟩ := List.forall_mem_cons.mp moves
    obtain ⟨n, shift⟩ := Option.isSome_iff_exists.mp first
    have moved : (d.add n).value.val = d.value.val + n := by
      refine value_add_of_isCount ?_
      have one := bounded [c] (List.prefix_append [c] cs)
      rwa [total_cons shift, total, List.filterMap_nil, List.sum_nil, Int.add_zero] at one
    have later : ∀ part, part <+: cs → IsCount ((d.add n).value.val + total part) := by
      intro part front
      have longer := bounded (c :: part) (List.cons_prefix_cons.mpr ⟨rfl, front⟩)
      rwa [total_cons shift, ← Int.add_assoc, ← moved] at longer
    rw [after_cons shift, ih (d.add n) others later, total_cons shift, moved, Int.add_assoc]

/-- Down and down again: what the lower bound has cut off once, it would cut off at the end. -/
theorem value_after_of_nonpos (d : Depth) (lowers : ∀ c ∈ cs, ∃ n ≤ 0, c.shift? = some n) :
    total cs ≤ 0 ∧ (d.after cs).value.val = max (-2 ^ 63) (d.value.val + total cs) := by
  induction cs generalizing d with
  | nil =>
    have bottom := d.value.lo_le
    exact ⟨Int.le_refl 0, by simp only [total, List.filterMap_nil, List.sum_nil, stateAfter, List.foldl_nil]; omega⟩
  | cons c cs ih =>
    obtain ⟨⟨n, down, shift⟩, others⟩ := List.forall_mem_cons.mp lowers
    obtain ⟨below, value⟩ := ih (d.add n) others
    have top := d.value.le_hi
    rw [total_cons shift, after_cons shift, value, value_add]
    omega

/-- A step brings two counters closer, or leaves them as far apart as they were. -/
theorem add_mono {d e : Depth} (le : d.value.val ≤ e.value.val) (n : Int) :
    (d.add n).value.val ≤ (e.add n).value.val ∧
      (e.add n).value.val - (d.add n).value.val ≤ e.value.val - d.value.val := by
  simp only [value_add]
  omega

theorem after_mono {d e : Depth} (le : d.value.val ≤ e.value.val) (moves : ∀ c ∈ cs, c.shift?.isSome = true) :
    (d.after cs).value.val ≤ (e.after cs).value.val ∧
      (e.after cs).value.val - (d.after cs).value.val ≤ e.value.val - d.value.val := by
  induction cs generalizing d e with
  | nil => exact ⟨le, Int.le_refl _⟩
  | cons c cs ih =>
    obtain ⟨first, others⟩ := List.forall_mem_cons.mp moves
    obtain ⟨n, shift⟩ := Option.isSome_iff_exists.mp first
    obtain ⟨ordered, closer⟩ := add_mono le n
    obtain ⟨final, distance⟩ := ih ordered others
    rw [after_cons shift, after_cons shift]
    exact ⟨final, Int.le_trans distance closer⟩

theorem answer_eq_value (d : Depth) (moves : ∀ c ∈ cs, c.shift?.isSome = true) :
    ∀ o ∈ trace perform d cs, o.answer = .value o.state.value := by
  intro o done
  obtain ⟨before, c, since, rfl, rfl⟩ := exists_of_mem_trace done
  obtain ⟨n, shift⟩ := Option.isSome_iff_exists.mp (moves c (by simp))
  obtain ⟨state, answer⟩ := perform_of_shift shift (d.after before)
  rw [state, answer]

end Runs

theorem total_subtract (ns : List Count) : total (ns.map .subtract) = -(ns.map (·.val)).sum := by
  induction ns with
  | nil => rfl
  | cons n ns ih =>
    rw [List.map_cons, total_cons rfl, ih, List.map_cons, List.sum_cons]
    omega

theorem value_after_subtract (d : Depth) {ns : List Count} (amounts : ∀ n ∈ ns, 0 ≤ n.val) :
    (d.after (ns.map .subtract)).value.val = max (-2 ^ 63) (d.value.val - (ns.map (·.val)).sum) := by
  have lowers : ∀ c ∈ ns.map Command.subtract, ∃ n ≤ 0, c.shift? = some n := by
    intro c member
    obtain ⟨n, amount, rfl⟩ := List.mem_map.mp member
    have up := amounts n amount
    exact ⟨-n.val, by omega, rfl⟩
  rw [(d.value_after_of_nonpos lowers).2, total_subtract]
  rfl

/-- Moves add up exactly while no partial sum leaves the range, and every step answers the value it leaves.
Subtractions of amounts that are not negative come to one subtraction of all they amount to, clamped once, so
that only their total matters. Two counters that make the same moves stay in their order and no further apart
than they began. -/
theorem moves_saturate (d : Depth) :
    (∀ cs : List Command, (∀ c ∈ cs, c.shift?.isSome = true) →
      IsCount (d.after cs).value.val ∧ (∀ o ∈ trace perform d cs, o.answer = .value o.state.value) ∧
        ((∀ part, part <+: cs → IsCount (d.value.val + total part)) →
          (d.after cs).value.val = d.value.val + total cs)) ∧
    (∀ ns : List Count, (∀ n ∈ ns, 0 ≤ n.val) →
      (d.after (ns.map .subtract)).value.val = max (-2 ^ 63) (d.value.val - (ns.map (·.val)).sum) ∧
        ∀ ms : List Count, (∀ m ∈ ms, 0 ≤ m.val) → (ms.map (·.val)).sum = (ns.map (·.val)).sum →
          d.after (ms.map .subtract) = d.after (ns.map .subtract)) ∧
    ∀ (e : Depth) (cs : List Command), (∀ c ∈ cs, c.shift?.isSome = true) → d.value.val ≤ e.value.val →
      (d.after cs).value.val ≤ (e.after cs).value.val ∧
        (e.after cs).value.val - (d.after cs).value.val ≤ e.value.val - d.value.val := by
  refine ⟨?_, ?_, fun e cs moves le => after_mono le moves⟩
  · exact fun cs moves => ⟨value_isCount _, d.answer_eq_value moves, d.value_after_of_isCount moves⟩
  · intro ns amounts
    have value := d.value_after_subtract amounts
    refine ⟨value, ?_⟩
    intro ms amounts' same
    have value' := d.value_after_subtract amounts'
    rw [same, ← value] at value'
    calc d.after (ms.map .subtract)
        = ⟨(d.after (ms.map .subtract)).value⟩ := rfl
      _ = ⟨(d.after (ns.map .subtract)).value⟩ := by rw [Bounded.ext value']
      _ = d.after (ns.map .subtract) := rfl

/-- Near the lower bound: up and down within it, down past it in two ways, and the smallest count taken away
from two counters, of which the higher one stops at the upper bound. -/
theorem moves_saturate_near_bounds :
    let low : Depth := ⟨Count.ofInt (-2 ^ 63 + 2)⟩
    let high : Depth := ⟨Count.ofInt 5⟩
    let cs : List Command := [.increment, .decrement, .subtract (Count.ofInt 2), .subtract (Count.ofInt (-1))]
    let ns := [Count.ofInt 1, Count.ofInt (2 ^ 63 - 1), Count.ofInt 3]
    let ms := [Count.ofInt 4, Count.ofInt (2 ^ 63 - 1)]
    let ds : List Command := [.subtract (Count.ofInt (-2 ^ 63)), .increment]
    ((∀ c ∈ cs, c.shift?.isSome = true) ∧ (∀ part, part <+: cs → IsCount (low.value.val + total part)) ∧
      (low.after cs).value.val = low.value.val + total cs) ∧
    ((∀ n ∈ ns, 0 ≤ n.val) ∧ (∀ m ∈ ms, 0 ≤ m.val) ∧ (ms.map (·.val)).sum = (ns.map (·.val)).sum ∧
      low.after (ms.map .subtract) = low.after (ns.map .subtract)) ∧
    (∀ c ∈ ds, c.shift?.isSome = true) ∧ low.value.val ≤ high.value.val ∧
      (low.after ds).value.val ≤ (high.after ds).value.val := by
  intro low high cs ns ms ds
  have moves : ∀ c ∈ cs, c.shift?.isSome = true := by decide
  have bounded : ∀ part, part <+: cs → IsCount (low.value.val + total part) := by
    have each : ∀ part ∈ cs.inits, IsCount (low.value.val + total part) := by decide
    exact fun part front => each part ((List.mem_inits part cs).mpr front)
  have amounts : ∀ n ∈ ns, 0 ≤ n.val := by decide
  have amounts' : ∀ m ∈ ms, 0 ≤ m.val := by decide
  have same : (ms.map (·.val)).sum = (ns.map (·.val)).sum := by decide
  have moves' : ∀ c ∈ ds, c.shift?.isSome = true := by decide
  have le : low.value.val ≤ high.value.val := by decide
  obtain ⟨sums, subtractions, pairs⟩ := moves_saturate low
  exact ⟨⟨moves, bounded, (sums cs moves).2.2 bounded⟩,
    ⟨amounts, amounts', same, (subtractions ns amounts).2 ms amounts' same⟩,
    moves', le, (pairs high ds moves' le).1⟩

end CountedStack.Depth
