import CountedStack.Proofs.Accounting
import CountedStack.Proofs.Interleaving
import Mathlib.Algebra.Order.BigOperators.Group.List
import Mathlib.Algebra.Ring.Int.Defs

/-!
Only pops can fail. None does where the pushes before it outnumber the pops (`size_after_of_floor`), and nothing is
left where the pops outnumber the pushes from every point on (`size_after_of_ceiling`).
-/

namespace CountedStack

variable {α : Type} [Item α]

/-- The items that the commands put on top. -/
def placed (cs : List (Command α)) : List α := cs.filterMap (·.move.placed?)

def popCount (cs : List (Command α)) : Nat := cs.countP (·.move.takes)

/-- What a run in which no pop fails and nothing is cleared adds to the number of items. -/
def gain (cs : List (Command α)) : Int := (placed cs).length - popCount cs

theorem placed_append (xs ys : List (Command α)) : placed (xs ++ ys) = placed xs ++ placed ys :=
  List.filterMap_append

theorem popCount_append (xs ys : List (Command α)) : popCount (xs ++ ys) = popCount xs + popCount ys :=
  List.countP_append

theorem gain_append (xs ys : List (Command α)) : gain (xs ++ ys) = gain xs + gain ys := by
  simp only [gain, placed_append, popCount_append, List.length_append]
  omega

theorem gain_singleton (c : Command α) :
    gain [c] = (if c.move.placed?.isSome then 1 else 0) - (if c.move.takes then 1 else 0) := by
  cases move : c.move <;> simp [gain, placed, popCount, move]

theorem gain_perm {xs ys : List (Command α)} (h : xs.Perm ys) : gain xs = gain ys := by
  have pushed : (placed xs).length = (placed ys).length := (h.filterMap _).length_eq
  have popped : popCount xs = popCount ys := h.countP_eq _
  rw [gain, gain, pushed, popped]

theorem gain_flatten (programs : List (List (Command α))) :
    gain programs.flatten = (programs.map gain).sum := by
  induction programs with
  | nil => rfl
  | cons p programs ih => rw [List.flatten_cons, gain_append, ih, List.map_cons, List.sum_cons]

namespace Stack

theorem successes_push (s : Stack α) (cs : List (Command α)) :
    s.successes Command.isPush cs = (placed cs).length := by
  induction cs generalizing s with
  | nil => rfl
  | cons c cs ih =>
    simp only [successes, push_succeeds, ih]
    cases move : c.move <;> simp [placed, move, Nat.add_comm]

theorem dropped_eq_zero (s : Stack α) {cs : List (Command α)} (kept : ∀ c ∈ cs, c.isClear = false) :
    s.dropped cs = 0 := by
  induction cs generalizing s with
  | nil => rfl
  | cons c cs ih =>
    obtain ⟨first, others⟩ := List.forall_mem_cons.mp kept
    have rest := ih (s.perform c).state others
    simp [dropped, first, rest]

theorem size_after_le (s : Stack α) (cs : List (Command α)) :
    (s.after cs).size ≤ s.size + (placed cs).length := by
  have balance := s.size_after cs
  rw [successes_push] at balance
  omega

omit [Item α] in
theorem isEmpty_iff_size (s : Stack α) : s.isEmpty = true ↔ s.size = 0 := by simp [isEmpty, size]

theorem size_perform (s : Stack α) {c : Command α} (kept : c.isClear = false) :
    ((s.perform c).state.size : Int) = max 0 (s.size + gain [c]) := by
  have step := s.size_apply c.move
  rw [← s.state_perform, ← c.classified.isClear, kept] at step
  rw [gain_singleton]
  have empty_iff := s.isEmpty_iff_size
  cases move : c.move with
  | take =>
    cases empty : s.isEmpty <;> simp [move, empty] at step empty_iff ⊢ <;> omega
  | _ =>
    simp [move] at step ⊢
    omega

theorem items_after_of_pushes (s : Stack α) {cs : List (Command α)} (kept : ∀ c ∈ cs, c.isClear = false)
    (noPops : popCount cs = 0) : (s.after cs).items = (placed cs).reverse ++ s.items := by
  induction cs generalizing s with
  | nil => rfl
  | cons c cs ih =>
    rw [show popCount (c :: cs) = popCount [c] + popCount cs from popCount_append [c] cs] at noPops
    obtain ⟨noClear, others⟩ := List.forall_mem_cons.mp kept
    have rest := ih (s.perform c).state others (by omega)
    have first : popCount [c] = 0 := by omega
    rw [c.classified.isClear] at noClear
    rw [after_cons, rest, state_perform]
    cases move : c.move with
    | take => simp [popCount, move] at first
    | clear => simp [move] at noClear
    | _ => simp [placed, move, apply]

theorem size_after_of_floor (s : Stack α) {cs : List (Command α)} (kept : ∀ c ∈ cs, c.isClear = false)
    (floor : ∀ part, part <+: cs → 0 ≤ s.size + gain part) :
    ((s.after cs).size : Int) = s.size + gain cs := by
  induction cs using List.reverseRecOn with
  | nil => simp [after, stateAfter, gain, placed, popCount]
  | append_singleton cs c ih =>
    obtain ⟨earlier, latest⟩ := List.forall_mem_append.mp kept
    have before := ih earlier (fun part h => floor part (h.trans (List.prefix_append cs [c])))
    have last := floor _ List.prefix_rfl
    have step := (s.after cs).size_perform (latest c List.mem_cons_self)
    rw [gain_append] at last ⊢
    rw [after_concat, step, before]
    omega

theorem pops_succeed_of_floor (s : Stack α) {cs : List (Command α)} (kept : ∀ c ∈ cs, c.isClear = false)
    (floor : ∀ part, part <+: cs → 0 ≤ s.size + gain part) :
    List.Forall₂ (fun c o => c.isPop = true → o.answer.item?.isSome = true) cs (s.outcomes cs) := by
  induction cs generalizing s with
  | nil => exact .nil
  | cons c cs ih =>
    obtain ⟨first, others⟩ := List.forall_mem_cons.mp kept
    have step := s.size_perform first
    have here := floor [c] (List.prefix_append [c] cs)
    have rest := ih (s.perform c).state others fun part cut => by
      have later := floor (c :: part) (List.cons_prefix_cons.mpr ⟨rfl, cut⟩)
      have whole : gain (c :: part) = gain [c] + gain part := gain_append [c] part
      omega
    refine .cons ?_ rest
    intro pop
    have takes : c.move = .take := Move.eq_take (by rw [← c.classified.isPop, pop])
    have nonempty : s.isEmpty = false := by
      rw [gain_singleton, takes] at here
      rw [Bool.eq_false_iff, Ne, isEmpty_iff_size]
      intro empty
      simp [empty] at here
    have succeeds := s.pop_succeeds c
    rw [pop, takes, nonempty] at succeeds
    simpa using succeeds

theorem size_after_of_ceiling (s : Stack α) {cs : List (Command α)} (kept : ∀ c ∈ cs, c.isClear = false)
    (ceiling : ∀ part, part <:+ cs → gain part ≤ 0) :
    ((s.after cs).size : Int) ≤ max 0 (s.size + gain cs) := by
  -- from the front, with the stack general: where a step empties it, the rest takes off all it puts on
  induction cs generalizing s with
  | nil => simp [after, stateAfter, gain, placed, popCount]
  | cons c cs ih =>
    obtain ⟨first, others⟩ := List.forall_mem_cons.mp kept
    have rest := ih (s.perform c).state others
      (fun part h => ceiling part (h.trans (List.suffix_cons c cs)))
    have remaining := ceiling cs (List.suffix_cons c cs)
    have step := s.size_perform first
    have whole : gain (c :: cs) = gain [c] + gain cs := gain_append [c] cs
    rw [after_cons, whole]
    omega

end Stack

section

variable {programs : List (List (Command α))} {order : List (Command α)}

/-- Where each program pushes at least as much as it pops up to any of its points, so does a
schedule. -/
theorem floor_of_interleaves (h : Interleaves programs order)
    (floor : ∀ xs ys, xs ++ ys ∈ programs → 0 ≤ gain xs) {part : List (Command α)} (cut : part <+: order) :
    0 ≤ gain part := by
  obtain ⟨rest, rfl⟩ := cut
  obtain ⟨halves, rfl, first, _⟩ := h.split
  rw [gain_perm first.perm, gain_flatten, List.map_map]
  apply List.sum_nonneg
  intro n member
  obtain ⟨half, present, rfl⟩ := List.mem_map.mp member
  exact floor half.1 half.2 (List.mem_map.mpr ⟨half, present, rfl⟩)

theorem ceiling_of_interleaves (h : Interleaves programs order)
    (ceiling : ∀ xs ys, xs ++ ys ∈ programs → gain ys ≤ 0) {part : List (Command α)} (cut : part <:+ order) :
    gain part ≤ 0 := by
  obtain ⟨before, rfl⟩ := cut
  obtain ⟨halves, rfl, _, second⟩ := h.split
  rw [gain_perm second.perm, gain_flatten, List.map_map]
  have each : ∀ n ∈ halves.map (gain ∘ Prod.snd), n ≤ 0 := by
    intro n member
    obtain ⟨half, present, rfl⟩ := List.mem_map.mp member
    exact ceiling half.1 half.2 (List.mem_map.mpr ⟨half, present, rfl⟩)
  simpa using List.sum_le_card_nsmul _ 0 each

end

end CountedStack
