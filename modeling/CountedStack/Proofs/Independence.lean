import CountedStack.Proofs.Erasure

/-! What a stack does with its items is up to the items: neither the counter nor the name has a part in it. -/

namespace CountedStack

variable {α : Type}

/-- A command that the items answer. The others show the counter or the name, or set the counter. -/
def Command.aboutItems : Command α → Bool
  | .counter _ | .depth | .name | .json | .describe => false
  | .call called _ => called ≠ "depth"
  | .push _ | .offer _ | .pop | .top | .size | .isEmpty | .clear | .bottomUp | .topDown => true

namespace Stack

variable [Item α] {s t : Stack α} {c : Command α}

omit [Item α] in
theorem items_apply_congr (same : s.items = t.items) (m : Move α) : (s.apply m).items = (t.apply m).items := by
  cases m with
  | place x => simp only [apply, same]
  | take =>
    unfold apply
    rw [same]
    cases t.items <;> simp only [same]
  | clear => rfl
  | _ => exact same

theorem items_perform_congr (same : s.items = t.items) (c : Command α) :
    (s.perform c).state.items = (t.perform c).state.items := by
  rw [state_perform, state_perform]
  exact items_apply_congr same c.move

theorem items_perform_aside (h : c.aboutItems = false) : (s.perform c).state.items = s.items := by
  cases c with
  | call called arg =>
    have depth : called = "depth" := by simpa [Command.aboutItems] using h
    subst depth
    rfl
  | counter c => rfl
  | depth | name | json | describe => rfl
  | _ => cases h

omit [Item α] in
theorem top?_congr (same : s.items = t.items) : s.top? = t.top? := congrArg List.head? same

theorem push_answer_congr (x : α) : (s.push x).answer = (t.push x).answer := by
  unfold push
  split <;> rfl

omit [Item α] in
theorem pop_answer_congr (same : s.items = t.items) : s.pop.answer = t.pop.answer := by
  rw [s.pop_apply.2, t.pop_apply.2]
  exact top?_congr same

theorem run_answer_congr (same : s.items = t.items) {op : Operation α} (h : op.name ≠ "depth") :
    (op.run s).answer = (op.run t).answer := by
  rcases op with ⟨_ | x⟩ | _ | _ | _ | _
  · rfl
  · exact congrArg Reply.ofOption (push_answer_congr x)
  · exact congrArg Reply.ofOption (pop_answer_congr same)
  · exact congrArg Reply.ofOption (top?_congr same)
  · exact absurd rfl h
  · simp only [Operation.run, size, same]

theorem answer_congr (same : s.items = t.items) (h : c.aboutItems = true) :
    (s.perform c).answer = (t.perform c).answer := by
  cases c with
  | push x => exact congrArg Answer.item (push_answer_congr x)
  | offer x => cases x <;> rfl
  | pop => exact congrArg Answer.item (pop_answer_congr same)
  | top => exact congrArg Answer.item (top?_congr same)
  | size => simp only [perform, size, same]
  | isEmpty => simp only [perform, isEmpty, same]
  | clear => rfl
  | bottomUp => simp only [perform, bottomUp, same]
  | topDown => simp only [perform, topDown, same]
  | call called arg =>
    have other : called ≠ "depth" := by simpa [Command.aboutItems] using h
    simp only [perform, Operation.call]
    cases found : Operation.ofName called arg with
    | ok op =>
      have named := Operation.name_of_ofName found
      have different : op.name ≠ "depth" := fun depth => other (named.symm.trans depth)
      simp only [Outcome.map, run_answer_congr same different]
    | error e => rfl
  | _ => cases h

def itemAnswers (s : Stack α) (cs : List (Command α)) : List (Answer α × List α) :=
  (kept perform (fun c _ => !c.aboutItems) s cs).map fun (_, o) => (o.answer, o.state.items)

theorem itemAnswers_eq_filter (same : s.items = t.items) (cs : List (Command α)) :
    s.itemAnswers cs = (t.outcomes (cs.filter Command.aboutItems)).map (fun o => (o.answer, o.state.items)) ∧
      (s.after cs).items = (t.after (cs.filter Command.aboutItems)).items := by
  have leftOut := seen_kept perform (fun (c : Command α) _ => !c.aboutItems)
    (fun s t : Stack α => s.items = t.items) (fun o => (o.answer, o.state.items))
    (fun {s t c} same aside => by
      have h : c.aboutItems = false := by simpa using aside
      exact (items_perform_aside h).trans same)
    (fun {s t c} same about => by
      have h : c.aboutItems = true := by simpa using about
      have items := items_perform_congr same c
      exact ⟨items, by rw [answer_congr same h, items]⟩)
    same cs
  rwa [map_fst_kept] at leftOut

/-- Two stacks with the same items, whatever their names and depths, that are asked the same about the
items: all else in the two runs may differ, such as what is done to the counters and when. The answers are
the same then, and so are the items, after each of these commands and at the end. -/
theorem itemAnswers_of_items_eq (same : s.items = t.items) {cs ds : List (Command α)}
    (asked : cs.filter Command.aboutItems = ds.filter Command.aboutItems) :
    s.itemAnswers cs = t.itemAnswers ds ∧ (s.after cs).items = (t.after ds).items := by
  obtain ⟨left, leftItems⟩ := itemAnswers_eq_filter same cs
  obtain ⟨right, rightItems⟩ := itemAnswers_eq_filter (rfl : t.items = t.items) ds
  rw [asked] at left leftItems
  exact ⟨left.trans right.symm, leftItems.trans rightItems.symm⟩

/-- One counter is at its upper bound and the other below zero, and both are set on the way. -/
theorem itemAnswers_of_items_eq_apart :
    let five := Count.ofInt 5
    let s : Stack Count := ⟨"s", [five], ⟨Count.ofInt 0x7fffffffffffffff⟩⟩
    let t : Stack Count := ⟨"t", [five], ⟨Count.ofInt (-3)⟩⟩
    let cs : List (Command Count) := [.push five, .counter .increment, .pop, .call "len" none, .pop, .top]
    let ds : List (Command Count) := [.counter (.restore "["), .push five, .pop, .call "len" none,
      .counter (.assign (Count.ofInt (-0x8000000000000000))), .depth, .pop, .top]
    s.items = t.items ∧ cs.filter Command.aboutItems = ds.filter Command.aboutItems ∧
      s.itemAnswers cs = t.itemAnswers ds ∧ (s.after cs).items = (t.after ds).items ∧
      (s.after cs).depth ≠ (t.after ds).depth := by
  intro five s t cs ds
  have same : s.items = t.items := rfl
  have asked : cs.filter Command.aboutItems = ds.filter Command.aboutItems := rfl
  obtain ⟨answers, items⟩ := itemAnswers_of_items_eq same asked
  exact ⟨same, asked, answers, items, by decide⟩

end Stack

end CountedStack
