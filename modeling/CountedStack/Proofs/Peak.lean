import CountedStack.Proofs.Balance
import Mathlib.Order.Bounds.Basic

/-!
A segment of a run that takes off what it puts on, and never more, leaves the items as they were. The depth comes
back too, unless the counter stopped on the way up: what it did not count is still taken away on the way down.
-/

namespace CountedStack.Stack

variable {α : Type} [Item α] (s : Stack α)

def lead (cs : List (Command α)) : Int :=
  s.successes Command.isPush cs - s.successes Command.isPop cs

/-- The largest lead at any point of a run. -/
def peak (cs : List (Command α)) : Int := (cs.inits.map s.lead).max (by cases cs <;> simp)

/-- Commands that push, pop and look: at no point have more pops than pushes succeeded, and at the end
equally many have. -/
structure Balanced (cs : List (Command α)) : Prop where
  kept : ∀ c ∈ cs, c.isClear = false
  unadjusted : ∀ c ∈ cs, c.adjusts = false
  ahead : ∀ part, part <+: cs → s.successes Command.isPop part ≤ s.successes Command.isPush part
  even : s.successes Command.isPop cs = s.successes Command.isPush cs

variable {s} {cs : List (Command α)}

theorem size_after_eq_lead (s : Stack α) (kept : ∀ c ∈ cs, c.isClear = false) :
    ((s.after cs).size : Int) = s.size + s.lead cs := by
  have balance := s.size_after cs
  rw [s.dropped_eq_zero kept] at balance
  unfold lead
  omega

theorem isGreatest_peak (s : Stack α) (cs : List (Command α)) :
    IsGreatest {n | ∃ part, part <+: cs ∧ s.lead part = n} (s.peak cs) := by
  have points (n : Int) : n ∈ cs.inits.map s.lead ↔ ∃ part, part <+: cs ∧ s.lead part = n := by
    simp only [List.mem_map, List.mem_inits]
  constructor
  · exact (points _).mp (List.max_mem _)
  · intro n point
    exact List.le_max_of_mem ((points n).mpr point)

theorem peak_concat (s : Stack α) (cs : List (Command α)) (c : Command α) :
    s.peak (cs ++ [c]) = max (s.lead (cs ++ [c])) (s.peak cs) := by
  have points : {n | ∃ part, part <+: cs ++ [c] ∧ s.lead part = n} =
      insert (s.lead (cs ++ [c])) {n | ∃ part, part <+: cs ∧ s.lead part = n} := by
    ext n
    simp only [List.prefix_concat_iff, or_and_right, exists_or, exists_eq_left, Set.mem_insert_iff,
      Set.mem_ofPred_eq, eq_comm]
  have longer := s.isGreatest_peak (cs ++ [c])
  rw [points] at longer
  exact longer.unique ((s.isGreatest_peak cs).insert _)

theorem items_suffix_after (kept : ∀ c ∈ cs, c.isClear = false)
    (ahead : ∀ part, part <+: cs → 0 ≤ s.lead part) : s.items <:+ (s.after cs).items := by
  induction cs using List.reverseRecOn with
  | nil => exact List.suffix_rfl
  | append_singleton cs c ih =>
    obtain ⟨earlier, latest⟩ := List.forall_mem_append.mp kept
    have before := ih earlier (fun part h => ahead part (h.trans (List.prefix_append cs [c])))
    have size := s.size_after_eq_lead kept
    have last := ahead _ List.prefix_rfl
    have noClear := latest c List.mem_cons_self
    rw [c.classified.isClear] at noClear
    rw [after_concat, state_perform] at size ⊢
    generalize s.after cs = t at before size ⊢
    cases move : c.move with
    | place x => exact before.trans (List.suffix_cons x t.items)
    | clear => simp [move] at noClear
    | take =>
      rw [move] at size
      cases items : t.items with
      | nil => simpa only [apply, items] using before
      | cons x rest =>
        simp only [apply, items, Stack.size] at before size ⊢
        rcases List.suffix_cons_iff.mp before with same | deeper
        · -- then this pop would leave fewer items than there were at the start
          rw [same, List.length_cons] at size
          omega
        · exact deeper
    | _ => exact before

/-- The counter stops at its upper bound for as much of the peak as is above it, and never at the
lower one. -/
theorem depth_after_eq_peak (kept : ∀ c ∈ cs, c.isClear = false)
    (unadjusted : ∀ c ∈ cs, c.adjusts = false) (ahead : ∀ part, part <+: cs → 0 ≤ s.lead part)
    (bounded : s.peak cs < 2 ^ 63) :
    (s.after cs).depth.value.val = min s.depth.value.val (2 ^ 63 - 1 - s.peak cs) + s.lead cs := by
  induction cs using List.reverseRecOn with
  | nil =>
    have top := s.depth.value.le_hi
    have none : s.peak [] = 0 := rfl
    have level : s.lead [] = 0 := rfl
    rw [none, level, Int.sub_zero, Int.add_zero]
    exact (Int.min_eq_left top).symm
  | append_singleton cs c ih =>
    obtain ⟨earlier, latest⟩ := List.forall_mem_append.mp unadjusted
    obtain ⟨keptEarlier, _⟩ := List.forall_mem_append.mp kept
    rw [peak_concat] at bounded ⊢
    have before := ih keptEarlier earlier (fun part h => ahead part (h.trans (List.prefix_append cs [c])))
      (by omega)
    have moved : c.move.adjusts = false := by
      rw [← c.classified.adjusts]
      exact latest c List.mem_cons_self
    have step := (s.after cs).depth_apply moved
    rw [← state_perform, ← after_concat, s.size_after_eq_lead kept, s.size_after_eq_lead keptEarlier] at step
    have bottom := s.depth.value.lo_le
    have high := (s.isGreatest_peak cs).2 ⟨cs, List.prefix_rfl, rfl⟩
    have last := ahead _ List.prefix_rfl
    rw [step, Depth.value_add, before]
    -- a push at the peak finds the counter at its bound; it stays there, and the peak goes up instead
    omega

theorem Balanced.lead_nonneg (h : s.Balanced cs) (part : List (Command α)) (cut : part <+: cs) :
    0 ≤ s.lead part := by
  have := h.ahead part cut
  unfold lead
  omega

theorem Balanced.lead_eq_zero (h : s.Balanced cs) : s.lead cs = 0 := by
  unfold lead
  rw [h.even, Int.sub_self]

theorem Balanced.items_eq (h : s.Balanced cs) : (s.after cs).items = s.items := by
  have size := s.size_after_eq_lead h.kept
  rw [h.lead_eq_zero] at size
  unfold Stack.size at size
  exact ((items_suffix_after h.kept h.lead_nonneg).eq_of_length (by omega)).symm

theorem balanced_push_pop (s : Stack α) {x : α} (present : isPresent x = true) :
    s.Balanced [.push x, .pop] ∧ s.peak [.push x, .pop] = 1 := by
  have move : (Command.push x).move = .place x := by
    simp [Command.move, Move.ofPush, isAbsent_of_isPresent present]
  have popped : (Command.pop : Command α).move = .take := rfl
  have nonempty : (s.perform (.push x)).state.isEmpty = false := by rw [state_perform, move]; rfl
  have first : s.successes Command.isPush [.push x] = 1 ∧ s.successes Command.isPop [.push x] = 0 := by
    simp [successes, push_succeeds, pop_succeeds, move]
  have both : s.successes Command.isPush [.push x, .pop] = 1 ∧
      s.successes Command.isPop [.push x, .pop] = 1 := by
    simp [successes, push_succeeds, pop_succeeds, move, popped, nonempty]
  have none : s.successes Command.isPush [] = 0 ∧ s.successes Command.isPop [] = 0 := ⟨rfl, rfl⟩
  constructor
  · constructor
    · simp [Command.isClear]
    · simp [Command.adjusts]
    · intro part cut
      rw [← List.mem_inits] at cut
      simp only [List.inits, List.map_cons, List.map_nil, List.mem_cons, List.not_mem_nil, or_false] at cut
      rcases cut with rfl | rfl | rfl <;> omega
    · omega
  · simp only [peak, List.inits, List.map_cons, List.map_nil, lead, none, first, both]
    rfl

/-- After a balanced run the items are those before it, and the depth is too, unless it was within the
peak of the run of the largest count. Pushing one item and popping it is a balanced run of peak 1. -/
theorem after_of_balanced (s : Stack α) :
    (∀ cs, s.Balanced cs → s.peak cs < 2 ^ 63 →
      IsGreatest {n | ∃ part, part <+: cs ∧ s.lead part = n} (s.peak cs) ∧
      let t := s.after cs
      t.name = s.name ∧ t.items = s.items ∧
        t.depth.value.val = min s.depth.value.val (2 ^ 63 - 1 - s.peak cs) ∧
        (t = s ↔ s.depth.value.val + s.peak cs ≤ 2 ^ 63 - 1)) ∧
    ∀ x, isPresent x = true → s.Balanced [.push x, .pop] ∧ s.peak [.push x, .pop] = 1 := by
  refine ⟨fun cs balanced bounded => ⟨s.isGreatest_peak cs, ?_⟩, fun x => s.balanced_push_pop⟩
  intro t
  have name : t.name = s.name := s.name_after cs
  have items : t.items = s.items := balanced.items_eq
  have depth : t.depth.value.val = min s.depth.value.val (2 ^ 63 - 1 - s.peak cs) := by
    rw [depth_after_eq_peak balanced.kept balanced.unadjusted balanced.lead_nonneg bounded,
      balanced.lead_eq_zero, Int.add_zero]
  refine ⟨name, items, depth, ?_⟩
  constructor
  · intro same
    rw [same] at depth
    omega
  · intro room
    have value : t.depth.value = s.depth.value := Bounded.ext (by omega)
    calc t = ⟨t.name, t.items, ⟨t.depth.value⟩⟩ := rfl
      _ = ⟨s.name, s.items, ⟨s.depth.value⟩⟩ := by rw [name, items, value]
      _ = s := rfl

/-- One below the largest count, a segment that goes up by two loses one. -/
theorem after_of_balanced_near_top :
    let s : Stack Count := ⟨"s", [Count.ofInt 4], ⟨Count.ofInt (2 ^ 63 - 2)⟩⟩
    let cs := [.push (Count.ofInt 5), .push (Count.ofInt 0), .call "push" (some (Count.ofInt 6)), .pop, .top,
      .call "pop" none]
    s.Balanced cs ∧ s.peak cs < 2 ^ 63 ∧ (s.after cs).items = s.items ∧
      (s.after cs).depth.value.val = min (2 ^ 63 - 2) (2 ^ 63 - 1 - s.peak cs) := by
  intro s cs
  have ahead : ∀ part ∈ cs.inits, s.successes Command.isPop part ≤ s.successes Command.isPush part := by
    decide
  have balanced : s.Balanced cs :=
    ⟨by decide, by decide, fun part cut => ahead part ((List.mem_inits part cs).mpr cut), by decide⟩
  have bounded : s.peak cs < 2 ^ 63 := by decide
  obtain ⟨_, _, items, depth, _⟩ := s.after_of_balanced.1 cs balanced bounded
  exact ⟨balanced, bounded, items, depth⟩

end CountedStack.Stack
