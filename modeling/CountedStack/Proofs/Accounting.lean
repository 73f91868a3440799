import CountedStack.Proofs.Move
import CountedStack.Settings
import Mathlib.Algebra.Group.Int.Defs
import Mathlib.Algebra.Group.Nat.Defs
import Mathlib.Data.List.Induction
import Mathlib.Data.List.Infix

/-! Each move but an adjustment changes the counter by what it changes the number of items, up to its bounds. -/

namespace CountedStack

variable {α : Type}

def IsCount (n : Int) : Prop := -2 ^ 63 ≤ n ∧ n ≤ 2 ^ 63 - 1

instance (n : Int) : Decidable (IsCount n) := inferInstanceAs (Decidable (_ ∧ _))

namespace Depth

theorem value_add_of_isCount {d : Depth} {n : Int} (h : IsCount (d.value.val + n)) :
    (d.add n).value.val = d.value.val + n := by
  obtain ⟨low, high⟩ := h
  rw [value_add]
  omega

theorem add_zero (d : Depth) : d.add 0 = d := by
  have same : Count.ofInt (d.value.val + 0) = d.value := by
    rw [Int.add_zero]
    exact Bounded.clamp_val d.value (by decide)
  unfold add
  rw [same]

end Depth

namespace Stack

theorem size_apply (s : Stack α) (m : Move α) :
    (s.apply m).size + (if m.takes && !s.isEmpty then 1 else 0) + (if m.clears then s.size else 0) =
      s.size + (if m.placed?.isSome then 1 else 0) := by
  cases m with
  | take => cases h : s.items <;> simp [apply, size, isEmpty, h]
  | _ => simp [apply, size]

theorem depth_apply (s : Stack α) {m : Move α} (h : m.adjusts = false) :
    (s.apply m).depth = s.depth.add ((s.apply m).size - s.size) := by
  cases m with
  | place x =>
    have moved : ((s.apply (.place x)).size : Int) - s.size = 1 := by
      simp only [apply, size, List.length_cons]
      omega
    rw [moved]
    rfl
  | take =>
    cases items : s.items with
    | nil => simp [apply, items, Depth.add_zero]
    | cons x rest =>
      have moved : ((s.apply .take).size : Int) - s.size = -1 := by
        simp only [apply, size, items, List.length_cons]
        omega
      rw [moved]
      simp [apply, items, Depth.decrement, Depth.subtract]
  | clear => simp [apply, size, Depth.subtract]
  | adjust c => cases h
  | _ => simp [apply, Depth.add_zero]

variable [Item α] (s : Stack α)

theorem push_succeeds (c : Command α) :
    (c.isPush && (s.perform c).answer.item?.isSome) = c.move.placed?.isSome := by
  rw [item?_perform]
  cases h : c.isPush with
  | true =>
    rcases c.classified.isPush h with placed | rest
    · obtain ⟨x, hx⟩ := Option.isSome_iff_exists.mp placed
      cases move : c.move <;> simp_all [answered]
    · simp [rest, answered]
  | false =>
    cases placed : c.move.placed? with
    | none => simp
    | some x => simp [(c.classified.placed x placed).1] at h

theorem pop_succeeds (c : Command α) :
    (c.isPop && (s.perform c).answer.item?.isSome) = (c.move.takes && !s.isEmpty) := by
  rw [item?_perform, c.classified.isPop]
  cases c.move <;> simp [answered, top?, isEmpty]
  cases s.items <;> rfl

def dropped (s : Stack α) : List (Command α) → Nat
  | [] => 0
  | c :: cs => (if c.isClear then s.size else 0) + dropped (s.perform c).state cs

theorem after_cons (c : Command α) (cs : List (Command α)) :
    s.after (c :: cs) = (s.perform c).state.after cs := rfl

theorem after_append (xs ys : List (Command α)) : s.after (xs ++ ys) = (s.after xs).after ys :=
  stateAfter_append perform s xs ys

theorem after_concat (cs : List (Command α)) (c : Command α) :
    s.after (cs ++ [c]) = ((s.after cs).perform c).state := s.after_append cs [c]

theorem size_after (cs : List (Command α)) :
    ((s.after cs).size : Int) =
      s.size + s.successes Command.isPush cs - s.successes Command.isPop cs - s.dropped cs := by
  induction cs generalizing s with
  | nil => simp [after, stateAfter, successes, dropped]
  | cons c cs ih =>
    have step := s.size_apply c.move
    rw [← s.state_perform] at step
    rw [after_cons, ih]
    simp only [successes, dropped, push_succeeds, pop_succeeds, c.classified.isClear]
    omega

/-- The depth after a run, were there no bounds: it moves with the number of items. -/
def exactDepth (cs : List (Command α)) : Int := s.depth.value.val + ((s.after cs).size - s.size)

theorem depth_after {cs : List (Command α)} (unadjusted : ∀ c ∈ cs, c.adjusts = false)
    (bounded : ∀ part, part <+: cs → IsCount (s.exactDepth part)) :
    (s.after cs).depth.value.val = s.exactDepth cs := by
  -- on prefixes, since `bounded` speaks of these: each step then lands within the bounds
  induction cs using List.reverseRecOn with
  | nil => simp [exactDepth, after, stateAfter]
  | append_singleton cs c ih =>
    obtain ⟨earlier, latest⟩ := List.forall_mem_append.mp unadjusted
    have before := ih earlier (fun part h => bounded part (h.trans (List.prefix_append cs [c])))
    have last := bounded _ List.prefix_rfl
    have moved : c.move.adjusts = false := by
      rw [← c.classified.adjusts]
      exact latest c List.mem_cons_self
    have step := (s.after cs).depth_apply moved
    rw [← state_perform] at step
    unfold exactDepth at before last ⊢
    rw [after_concat] at last ⊢
    rw [step, Depth.value_add_of_isCount] <;> rw [before]
    · omega
    · convert last using 1
      omega

/-- Without adjustments a depth that starts as the number of items stays so, as long as the number of
items is a count. -/
theorem depth_eq_size {cs : List (Command α)} (start : s.depth.value.val = s.size)
    (unadjusted : ∀ c ∈ cs, c.adjusts = false)
    (bounded : ∀ part, part <+: cs → (s.after part).size < 2 ^ 63) :
    (s.after cs).depth.value.val = (s.after cs).size := by
  have exact_eq_size (part : List (Command α)) : s.exactDepth part = (s.after part).size := by
    unfold exactDepth
    omega
  have counted : ∀ part, part <+: cs → IsCount (s.exactDepth part) := by
    intro part h
    have := bounded part h
    rw [exact_eq_size]
    constructor <;> omega
  rw [s.depth_after unadjusted counted, exact_eq_size]

end Stack

theorem Settings.build_eq_ok {settings : Settings} {s : Stack α} (h : settings.build = .ok s) :
    s = { name := settings.name } := by
  unfold build at h
  split at h
  · cases h
    rfl
  · cases h

namespace Stack

variable [Item α] {settings : Settings} {s : Stack α}

/-- The number of items and the depth in every state that a new stack reaches. `before` may end at the
latest adjustment, or be empty where there was none. -/
theorem size_and_depth_after (built : settings.build = .ok s) (cs : List (Command α)) :
    (s.size = 0 ∧ s.depth.value.val = 0) ∧
    ((s.after cs).size : Int) =
      s.successes Command.isPush cs - s.successes Command.isPop cs - s.dropped cs ∧
    (∀ before since, cs = before ++ since → (∀ c ∈ since, c.adjusts = false) →
      (∀ part, part <+: since → IsCount ((s.after before).exactDepth part)) →
      (s.after cs).depth.value.val = (s.after before).exactDepth since) ∧
    ((∀ c ∈ cs, c.adjusts = false) → (∀ part, part <+: cs → (s.after part).size < 2 ^ 63) →
      (s.after cs).depth.value.val = (s.after cs).size) := by
  obtain rfl := Settings.build_eq_ok built
  have sizes := size_after ({ name := settings.name } : Stack α) cs
  refine ⟨⟨rfl, rfl⟩, ?_, ?_, ?_⟩
  · rw [sizes]
    simp [size]
  · rintro before since rfl unadjusted bounded
    rw [after_append]
    exact depth_after _ unadjusted bounded
  · exact depth_eq_size _ rfl

theorem size_and_depth_after_assign :
    let start : Stack Count := {}
    let before := [.push (Count.ofInt 5), .counter (.assign (Count.ofInt 10))]
    let since := [.push (Count.ofInt 7), .pop, .pop, .call "push" (some (Count.ofInt 3))]
    ({} : Settings).build = .ok start ∧ (∀ c ∈ since, c.adjusts = false) ∧
      (∀ part, part <+: since → IsCount ((start.after before).exactDepth part)) ∧
      start.successes Command.isPush (before ++ since) = 3 ∧ start.successes Command.isPop (before ++ since) = 2 ∧
      ((start.after (before ++ since)).size : Int) = 1 ∧
      (start.after (before ++ since)).depth.value.val = 10 := by
  intro start before since
  have unadjusted : ∀ c ∈ since, c.adjusts = false := by decide
  have bounded : ∀ part, part <+: since → IsCount ((start.after before).exactDepth part) := by
    have each : ∀ part ∈ since.inits, IsCount ((start.after before).exactDepth part) := by decide
    exact fun part h => each part ((List.mem_inits part since).mpr h)
  have built : ({} : Settings).build = .ok start := rfl
  have pushed : start.successes Command.isPush (before ++ since) = 3 := by decide
  have popped : start.successes Command.isPop (before ++ since) = 2 := by decide
  have dropped : start.dropped (before ++ since) = 0 := by decide
  obtain ⟨_, size, depth, _⟩ := size_and_depth_after built (before ++ since)
  rw [pushed, popped, dropped] at size
  exact ⟨built, unadjusted, bounded, pushed, popped, size,
    (depth before since rfl unadjusted bounded).trans (by decide)⟩

end Stack

end CountedStack
