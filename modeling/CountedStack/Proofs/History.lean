import CountedStack.Proofs.Accounting
import Mathlib.Data.Finset.Sort

/-!
What was asked and what was answered tells which pushes and pops succeeded. They are matched on that history alone,
which knows nothing of a stack.
-/

namespace CountedStack

variable {α : Type}

inductive Mark (α : Type) where
  | pushed (x : α)
  | popped
  | cleared
  | other
deriving DecidableEq

def Mark.of (c : Command α) (a : Answer α) : Mark α :=
  if c.isClear then .cleared
  else if a.item?.isNone then .other
  else if c.isPop then .popped
  else if c.isPush then c.argument?.elim .other .pushed
  else .other

def Stack.history [Item α] (s : Stack α) : List (Command α) → List (Mark α)
  | [] => []
  | c :: cs => .of c (s.perform c).answer :: history (s.perform c).state cs

def withoutLatest (steps : Finset Nat) : Finset Nat := steps.filter fun i => ∃ j ∈ steps, i < j

/-- The pushes among the first `k` steps that are still unmatched then. -/
def unmatched (h : List (Mark α)) : Nat → Finset Nat
  | 0 => ∅
  | k + 1 =>
    match h[k]? with
    | some (.pushed _) => insert k (unmatched h k)
    | some .popped => withoutLatest (unmatched h k)
    | some .cleared => ∅
    | some .other | none => unmatched h k

/-- Step `k` is a successful pop, and it is matched with the push of step `i`. -/
def IsMatch (h : List (Mark α)) (k i : Nat) : Prop :=
  h[k]? = some .popped ∧ IsGreatest (unmatched h k : Set Nat) i

theorem lt_of_mem_unmatched {h : List (Mark α)} {k i : Nat} (member : i ∈ unmatched h k) : i < k := by
  induction k with
  | zero => simp [unmatched] at member
  | succ k ih =>
    unfold unmatched at member
    split at member
    · rcases Finset.mem_insert.mp member with rfl | earlier
      · omega
      · have := ih earlier
        omega
    · have := ih (Finset.mem_filter.mp member).1
      omega
    · simp at member
    all_goals
      have := ih member
      omega

theorem sort_insert_latest {steps : Finset Nat} {k : Nat} (later : ∀ i ∈ steps, i < k) :
    (insert k steps).sort (· ≥ ·) = k :: steps.sort (· ≥ ·) := by
  apply Finset.sort_insert
  · exact fun i member => Nat.le_of_lt (later i member)
  · exact fun member => Nat.lt_irrefl k (later k member)

theorem sort_withoutLatest (steps : Finset Nat) :
    (withoutLatest steps).sort (· ≥ ·) = (steps.sort (· ≥ ·)).tail := by
  have sorted := steps.sortedGT_sort.pairwise
  have members : (steps.sort (· ≥ ·)).toFinset = steps := Finset.sort_toFinset _ _
  cases order : steps.sort (· ≥ ·) with
  | nil =>
    rw [order] at members
    rw [← members]
    simp [withoutLatest]
  | cons latest rest =>
    rw [order] at members sorted
    obtain ⟨below, sortedRest⟩ := List.pairwise_cons.mp sorted
    have remaining : withoutLatest steps = rest.toFinset := by
      ext i
      rw [withoutLatest, Finset.mem_filter, ← members]
      simp only [List.toFinset_cons, Finset.mem_insert, List.mem_toFinset]
      constructor
      · rintro ⟨rfl | member, j, rfl | other, less⟩
        · omega
        · have := below j other
          omega
        · exact member
        · exact member
      · intro member
        exact ⟨.inr member, latest, .inl rfl, below i member⟩
    rw [remaining, List.tail_cons]
    have distinct : rest.Nodup := sortedRest.imp fun h => Nat.ne_of_gt h
    exact (List.toFinset_sort (· ≥ ·) distinct).mpr (sortedRest.imp fun h => Nat.le_of_lt h)

theorem isGreatest_of_sort {steps : Finset Nat} {latest : Nat} {rest : List Nat}
    (order : steps.sort (· ≥ ·) = latest :: rest) : IsGreatest (steps : Set Nat) latest := by
  have sorted := steps.sortedGT_sort.pairwise
  have members (i : Nat) : i ∈ steps ↔ i ∈ latest :: rest := by rw [← order, Finset.mem_sort]
  rw [order, List.pairwise_cons] at sorted
  constructor
  · exact (members latest).mpr List.mem_cons_self
  · intro i member
    rcases List.mem_cons.mp ((members i).mp member) with rfl | earlier
    · exact Nat.le_refl i
    · exact Nat.le_of_lt (sorted.1 i earlier)

theorem sort_reverse (steps : Finset Nat) : (steps.sort (· ≥ ·)).reverse = steps.sort := by
  have descending := steps.sortedGT_sort.pairwise
  have ascending : (steps.sort (· ≥ ·)).reverse.Pairwise (· ≤ ·) :=
    List.pairwise_reverse.mpr (descending.imp fun h => Nat.le_of_lt h)
  have distinct : (steps.sort (· ≥ ·)).reverse.Nodup :=
    List.nodup_reverse.mpr (descending.imp fun h => Nat.ne_of_gt h)
  have members : (steps.sort (· ≥ ·)).reverse.toFinset = steps := by
    rw [List.toFinset_reverse, Finset.sort_toFinset]
  have sorted := (List.toFinset_sort (fun i j : Nat => i ≤ j) distinct).mpr ascending
  rw [members] at sorted
  exact sorted.symm

namespace Stack

variable [Item α] (s : Stack α)

theorem mark_perform (c : Command α) :
    Mark.of c (s.perform c).answer =
      match c.move with
      | .place x => .pushed x
      | .take => if s.isEmpty then .other else .popped
      | .clear => .cleared
      | .look | .adjust _ | .rest => .other := by
  have item := s.item?_perform c
  obtain ⟨isPop, isTop, isClear, _, placed, isPush⟩ := c.classified
  unfold Mark.of
  rw [isClear, item, isPop]
  cases move : c.move with
  | place x =>
    obtain ⟨push, argument⟩ := placed x (by rw [move]; rfl)
    simp [answered, push, argument]
  | take => cases items : s.items <;> simp [answered, top?, isEmpty, items]
  | look =>
    -- a look may answer an item too, but only a push is marked as one
    have noPush : c.isPush = false := by
      cases h : c.isPush with
      | false => rfl
      | true => simpa [move] using isPush h
    simp [answered, noPush]
  | _ => simp [answered]

theorem getElem?_history (cs : List (Command α)) (k : Nat) :
    (s.history cs)[k]? = cs[k]?.map fun c => .of c ((s.after (cs.take k)).perform c).answer := by
  induction cs generalizing s k with
  | nil => simp [history]
  | cons c cs ih =>
    cases k with
    | zero => rfl
    | succ k =>
      simp only [history, List.getElem?_cons_succ, List.take_succ_cons, after_cons]
      exact ih (s.perform c).state k

theorem after_take_succ {cs : List (Command α)} {k : Nat} {c : Command α} (h : cs[k]? = some c) :
    s.after (cs.take (k + 1)) = ((s.after (cs.take k)).perform c).state := by
  rw [List.take_add_one, h, Option.toList_some, after_concat]

/-- The unmatched pushes, the latest first, stand for the items from the top. -/
theorem items_match_unmatched {s : Stack α} (empty : s.isEmpty = true) (cs : List (Command α)) (k : Nat) :
    List.Forall₂ (fun i x => (s.history cs)[i]? = some (.pushed x))
      ((unmatched (s.history cs) k).sort (· ≥ ·)) (s.after (cs.take k)).items := by
  induction k with
  | zero =>
    have none : s.items = [] := List.isEmpty_iff.mp empty
    simp [unmatched, after, stateAfter, none]
  | succ k ih =>
    cases step : cs[k]? with
    | none =>
      -- beyond the end of the run neither side moves
      have ended : (s.history cs)[k]? = none := by rw [getElem?_history, step, Option.map_none]
      have short : cs.length ≤ k := List.getElem?_eq_none_iff.mp step
      rw [List.take_of_length_le (Nat.le_succ_of_le short)]
      rw [List.take_of_length_le short] at ih
      simpa only [unmatched, ended] using ih
    | some c =>
      have mark := s.getElem?_history cs k
      rw [step, Option.map_some, mark_perform] at mark
      rw [after_take_succ s step, state_perform]
      unfold unmatched
      generalize s.after (cs.take k) = t at mark ih ⊢
      cases move : c.move with
      | place x =>
        simp only [move] at mark
        rw [mark]
        simp only [apply]
        rw [sort_insert_latest fun i member => lt_of_mem_unmatched member]
        exact .cons mark ih
      | take =>
        cases items : t.items with
        | nil =>
          -- this pop is matched with no push
          simp only [move, isEmpty, items, List.isEmpty_nil, if_true] at mark
          rw [mark]
          simpa only [apply, items] using ih
        | cons x rest =>
          -- the latest unmatched push is matched now, and its item is the one that goes
          simp only [move, isEmpty, items, List.isEmpty_cons, Bool.false_eq_true, if_false] at mark
          rw [mark]
          simp only [apply, items, sort_withoutLatest]
          rw [items] at ih
          generalize (unmatched (s.history cs) k).sort (· ≥ ·) = order at ih ⊢
          cases ih with
          | cons _ remaining => exact remaining
      | clear =>
        simp only [move] at mark
        rw [mark]
        simp [apply]
      | _ =>
        simp only [move] at mark
        rw [mark]
        exact ih

theorem top?_match_unmatched {s : Stack α} (empty : s.isEmpty = true) (cs : List (Command α)) (k : Nat) :
    ((s.after (cs.take k)).top? = none ↔ unmatched (s.history cs) k = ∅) ∧
    ∀ x, (s.after (cs.take k)).top? = some x →
      ∃ i, IsGreatest (unmatched (s.history cs) k : Set Nat) i ∧ (s.history cs)[i]? = some (.pushed x) := by
  have items := items_match_unmatched empty cs k
  unfold top?
  cases order : (unmatched (s.history cs) k).sort (· ≥ ·) with
  | nil =>
    have none : unmatched (s.history cs) k = ∅ := by
      rw [← Finset.sort_toFinset (unmatched (s.history cs) k) (· ≥ ·), order]
      rfl
    rw [order, List.forall₂_nil_left_iff] at items
    simp [items, none]
  | cons i rest =>
    have latest := isGreatest_of_sort order
    rw [order] at items
    obtain ⟨x, below, pushed, _, same⟩ := List.forall₂_cons_left_iff.mp items
    rw [same]
    constructor
    · have some : unmatched (s.history cs) k ≠ ∅ := Finset.ne_empty_of_mem latest.1
      simp [some]
    · rintro y ⟨⟩
      exact ⟨i, latest, pushed⟩

theorem mark_pop {c : Command α} (pop : c.isPop = true) (h : (s.perform c).answer.item?.isSome = true) :
    Mark.of c (s.perform c).answer = .popped := by
  have move : c.move = .take := Move.eq_take (by rw [← c.classified.isPop, pop])
  have nonempty := s.pop_succeeds c
  rw [pop, h, move] at nonempty
  rw [mark_perform, move]
  cases empty : s.isEmpty with
  | true => simp [empty] at nonempty
  | false => rfl

/-- At every point of a run from an empty stack the items are those of the unmatched pushes, a pop
answers the item of the push it is matched with, and the top item is that of the latest one. -/
theorem items_match_history {s : Stack α} (empty : s.isEmpty = true) (cs : List (Command α)) (k : Nat) :
    let h := s.history cs
    let t := s.after (cs.take k)
    List.Forall₂ (fun i x => h[i]? = some (.pushed x)) (unmatched h k).sort t.bottomUp ∧
    ∀ c, cs[k]? = some c →
      let item := (t.perform c).answer.item?
      (c.isPop = true ∨ c.isTop = true → (item = none ↔ unmatched h k = ∅)) ∧
      (c.isPop = true → ∀ x, item = some x → ∃ i, IsMatch h k i ∧ h[i]? = some (.pushed x)) ∧
      (c.isTop = true → ∀ x, item = some x →
        ∃ i, IsGreatest (unmatched h k : Set Nat) i ∧ h[i]? = some (.pushed x)) := by
  intro h t
  refine ⟨?_, ?_⟩
  · rw [← sort_reverse, bottomUp]
    exact List.rel_reverse (items_match_unmatched empty cs k)
  · intro c step item
    obtain ⟨noItem, latestItem⟩ := top?_match_unmatched empty cs k
    have shown : c.isPop = true ∨ c.isTop = true → item = t.top? := by
      intro asked
      have := t.item?_perform c
      rw [c.classified.isPop, c.classified.isTop] at asked
      cases move : c.move <;> simp_all [answered, item]
    refine ⟨fun asked => by rw [shown asked]; exact noItem, ?_, ?_⟩
    · intro pop x answer
      obtain ⟨i, latest, pushed⟩ := latestItem x (by rw [← shown (.inl pop)]; exact answer)
      have succeeded : (t.perform c).answer.item?.isSome = true := Option.isSome_of_eq_some answer
      have mark : h[k]? = some .popped := by
        rw [getElem?_history, step, Option.map_some]
        exact congrArg some (t.mark_pop pop succeeded)
      exact ⟨i, ⟨mark, latest⟩, pushed⟩
    · intro top x answer
      exact latestItem x (by rw [← shown (.inr top)]; exact answer)

theorem items_match_history_nested :
    let s : Stack Count := {}
    let cs := [.push (Count.ofInt 5), .push (Count.ofInt 6), .pop, .call "push" (some (Count.ofInt 7)), .top, .pop]
    s.isEmpty = true ∧ unmatched (s.history cs) 5 = {0, 3} ∧
      ∃ i, IsMatch (s.history cs) 5 i ∧ (s.history cs)[i]? = some (.pushed (Count.ofInt 7)) := by
  intro s cs
  have empty : s.isEmpty = true := rfl
  obtain ⟨_, steps⟩ := items_match_history empty cs 5
  obtain ⟨_, popped, _⟩ := steps .pop rfl
  exact ⟨empty, by decide, popped rfl (Count.ofInt 7) (by decide)⟩

end Stack

end CountedStack
