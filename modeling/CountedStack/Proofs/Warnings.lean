import CountedStack.Proofs.Accounting

namespace CountedStack.Stack

variable {α : Type}

def Covered (s : Stack α) : Prop := (s.size : Int) ≤ s.depth.value.val

instance (s : Stack α) : Decidable s.Covered := inferInstanceAs (Decidable (_ ≤ _))

def popLines (name : String) (depth : Count) : List Line :=
  (if depth.val < 0 then
    [⟨.warn, name ++ ": " ++ ("depth counter went negative (" ++ Decimal.text depth.val ++ ")")⟩] else []) ++
  [⟨.trace, name ++ ": " ++ ("pop, depth " ++ Decimal.text depth.val)⟩]

/-- A push at the largest depth is not counted, but by then the items that fit are all on. -/
theorem covered_apply {s : Stack α} {m : Move α} (covered : s.Covered) (unadjusted : m.adjusts = false)
    (bounded : (s.apply m).size < 2 ^ 63) : (s.apply m).Covered := by
  have moved := s.depth_apply unadjusted
  unfold Covered at covered ⊢
  rw [moved, Depth.value_add]
  omega

theorem decrement_of_covered {s : Stack α} (covered : s.Covered) (nonempty : s.isEmpty = false) :
    0 ≤ s.depth.decrement.value.val := by
  have items : 0 < s.size := List.length_pos_iff.mpr (by simpa [isEmpty] using nonempty)
  have top := s.depth.value.le_hi
  unfold Covered at covered
  rw [Depth.decrement, Depth.subtract, Depth.value_add]
  omega

variable [Item α]

theorem perform_of_popped {s : Stack α} {c : Command α}
    (popped : (c.isPop && (s.perform c).answer.item?.isSome) = true) :
    s.isEmpty = false ∧ (s.perform c).state.depth = s.depth.decrement ∧
      (s.perform c).events = popEvents s.depth.decrement.value := by
  rw [pop_succeeds, Bool.and_eq_true, Bool.not_eq_true'] at popped
  obtain ⟨takes, nonempty⟩ := popped
  have move := Move.eq_take takes
  refine ⟨nonempty, ?_, ?_⟩
  · rw [state_perform, move]
    cases items : s.items with
    | nil => simp [isEmpty, items] at nonempty
    | cons x rest => simp only [apply, items]
  · rcases s.events_perform c with logged | ⟨rest, _⟩
    · simpa only [move, Stack.logged, nonempty, Bool.false_eq_true, if_false] using logged
    · rw [move] at rest
      cases rest

theorem log_of_popped (name : String) {s : Stack α} {c : Command α}
    (popped : (c.isPop && (s.perform c).answer.item?.isSome) = true) :
    (s.perform c).log name = popLines name (s.perform c).state.depth.value := by
  obtain ⟨_, state, events⟩ := perform_of_popped popped
  rw [Outcome.log, events, state, popEvents, popLines]
  split <;> rfl

theorem level_of_not_popped (name : String) {s : Stack α} {c : Command α}
    (notPopped : (c.isPop && (s.perform c).answer.item?.isSome) = false) :
    ∀ line ∈ (s.perform c).log name, line.level ≠ .warn := by
  rw [pop_succeeds] at notPopped
  unfold Outcome.log
  rcases s.events_perform c with logged | ⟨_, ignored⟩
  · rw [logged]
    cases move : c.move with
    | take =>
      have empty : s.isEmpty = true := by simpa [move] using notPopped
      simp [Stack.logged, empty, Event.line, Event.level]
    | _ => simp [Stack.logged, Event.line, Event.level]
  · simp [ignored, Event.line, Event.level]

theorem level_of_covered (name : String) {s : Stack α} {c : Command α} (covered : s.Covered) :
    ∀ line ∈ (s.perform c).log name, line.level ≠ .warn := by
  cases popped : c.isPop && (s.perform c).answer.item?.isSome with
  | false => exact level_of_not_popped name popped
  | true =>
    obtain ⟨nonempty, state, _⟩ := perform_of_popped popped
    have nonnegative : ¬(s.perform c).state.depth.value.val < 0 := by
      rw [state]
      exact Int.not_lt.mpr (decrement_of_covered covered nonempty)
    rw [log_of_popped name popped, popLines, if_neg nonnegative]
    simp

variable {s : Stack α} {cs : List (Command α)}

/-- The owner never leaves the counter below the number of items. -/
def KeepsCovered (s : Stack α) (cs : List (Command α)) : Prop :=
  ∀ before c, before ++ [c] <+: cs → c.adjusts = true → (s.after (before ++ [c])).Covered

theorem covered_after (start : s.Covered) (kept : s.KeepsCovered cs)
    (bounded : ∀ part, part <+: cs → (s.after part).size < 2 ^ 63) : (s.after cs).Covered := by
  induction cs using List.reverseRecOn with
  | nil => exact start
  | append_singleton cs c ih =>
    have before := ih (fun before d cut => kept before d (cut.trans (List.prefix_append cs [c])))
      (fun part cut => bounded part (cut.trans (List.prefix_append cs [c])))
    cases adjusts : c.adjusts with
    | true => exact kept cs c List.prefix_rfl adjusts
    | false =>
      have last := bounded _ List.prefix_rfl
      rw [c.classified.adjusts] at adjusts
      rw [after_concat, state_perform] at last ⊢
      exact covered_apply before adjusts last

/-- A counter that covers the items of a stack, a new one or one that was restored, covers them throughout
a run in which its owner leaves it so, and the run never warns. In any run, a warning stands before the line
of each pop that leaves the counter below zero, and nowhere else. -/
theorem no_warning_while_covered (s : Stack α) (cs : List (Command α)) :
    (∀ settings : Settings, settings.build = .ok s → s.Covered) ∧
    (s.Covered → s.KeepsCovered cs → (∀ part, part <+: cs → (s.after part).size < 2 ^ 63) →
      (∀ part, part <+: cs → (s.after part).Covered) ∧
        ∀ o ∈ s.outcomes cs, ∀ line ∈ o.log s.name, line.level ≠ .warn) ∧
    ∀ before c since, cs = before ++ c :: since →
      let o := (s.after before).perform c
      ((c.isPop && o.answer.item?.isSome) = true → o.log s.name = popLines s.name o.state.depth.value) ∧
      ((c.isPop && o.answer.item?.isSome) = false → ∀ line ∈ o.log s.name, line.level ≠ .warn) := by
  refine ⟨?_, ?_, ?_⟩
  · intro settings built
    rw [Settings.build_eq_ok built]
    exact Int.le_refl 0
  · intro start kept bounded
    have covered : ∀ part, part <+: cs → (s.after part).Covered := fun part cut =>
      covered_after start (fun before c earlier => kept before c (earlier.trans cut))
        (fun shorter earlier => bounded shorter (earlier.trans cut))
    refine ⟨covered, ?_⟩
    intro o done
    obtain ⟨before, c, since, rfl, rfl⟩ := exists_of_mem_trace done
    exact level_of_covered s.name (covered before (List.prefix_append before (c :: since)))
  · intro before c since _ o
    exact ⟨log_of_popped s.name, level_of_not_popped s.name⟩

/-- Up to the largest count and down again, and one pop from a stack whose counter was left at zero. -/
theorem no_warning_while_covered_raised :
    let s : Stack Count := {}
    let cs : List (Command Count) := [.push (Count.ofInt 5), .counter (.assign (Count.ofInt (2 ^ 63 - 1))),
      .push (Count.ofInt 7), .call "pop" none, .counter (.assign (Count.ofInt 1)), .pop, .pop, .clear]
    let t : Stack Count := ⟨"t", [Count.ofInt 5], ⟨Count.ofInt 0⟩⟩
    ({} : Settings).build = .ok s ∧ s.Covered ∧ s.KeepsCovered cs ∧
      (∀ part, part <+: cs → (s.after part).size < 2 ^ 63) ∧ (s.after cs).Covered ∧
      (∀ o ∈ s.outcomes cs, ∀ line ∈ o.log s.name, line.level ≠ .warn) ∧
      (t.perform .pop).log "t" = popLines "t" (Count.ofInt (-1)) := by
  intro s cs t
  have built : ({} : Settings).build = .ok s := rfl
  have kept : s.KeepsCovered cs := by
    have each : ∀ part ∈ cs.inits, ∀ c ∈ part.getLast?, c.adjusts = true → (s.after part).Covered := by decide
    intro before c cut
    exact each _ ((List.mem_inits _ cs).mpr cut) c (by simp)
  have bounded : ∀ part, part <+: cs → (s.after part).size < 2 ^ 63 := by
    have each : ∀ part ∈ cs.inits, (s.after part).size < 2 ^ 63 := by decide
    exact fun part cut => each part ((List.mem_inits part cs).mpr cut)
  obtain ⟨new, covered, _⟩ := no_warning_while_covered s cs
  obtain ⟨always, silent⟩ := covered (new {} built) kept bounded
  obtain ⟨_, _, places⟩ := no_warning_while_covered t [.pop]
  have warned := (places [] .pop [] rfl).1 (by decide)
  exact ⟨built, new {} built, kept, bounded, always cs List.prefix_rfl, silent, warned⟩

end CountedStack.Stack
