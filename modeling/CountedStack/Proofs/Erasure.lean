import CountedStack.Session
import CountedStack.Proofs.Move

/-! The steps that a run can do without: those that fail, that push or pop nothing, and that only look. -/

namespace CountedStack

section Kept

variable {σ ι β γ : Type} (step : σ → ι → Outcome σ β) (skip : ι → β → Bool)

/-- The requests of a run that `skip` does not pick, going by their answers; each with what it did. -/
def kept (s : σ) (xs : List ι) : List (ι × Outcome σ β) :=
  (xs.zip (trace step s xs)).filter fun (x, o) => !skip x o.answer

theorem kept_cons_of_skip {s : σ} {x : ι} (h : skip x (step s x).answer = true) (xs : List ι) :
    kept step skip s (x :: xs) = kept step skip (step s x).state xs := by
  simp [kept, trace, h]

theorem kept_cons_of_not_skip {s : σ} {x : ι} (h : skip x (step s x).answer = false) (xs : List ι) :
    kept step skip s (x :: xs) = (x, step s x) :: kept step skip (step s x).state xs := by
  simp [kept, trace, h]

theorem map_fst_kept (pick : ι → Bool) (s : σ) (xs : List ι) :
    (kept step (fun x _ => !pick x) s xs).map Prod.fst = xs.filter pick := by
  have requests : (xs.zip (trace step s xs)).map Prod.fst = xs :=
    List.map_fst_zip (Nat.le_of_eq (length_trace step s xs).symm)
  simp only [kept, Bool.not_not]
  calc ((xs.zip (trace step s xs)).filter fun pair => pick pair.1).map Prod.fst
      = ((xs.zip (trace step s xs)).map Prod.fst).filter pick := List.filter_map.symm
    _ = xs.filter pick := by rw [requests]

/-- If the picked steps keep a state `alike` to another, and the others look the same from both states, then
the others look the same without the picked ones. -/
theorem seen_kept (alike : σ → σ → Prop) (seen : Outcome σ β → γ)
    (hidden : ∀ {s t x}, alike s t → skip x (step s x).answer = true → alike (step s x).state t)
    (visible : ∀ {s t x}, alike s t → skip x (step s x).answer = false →
      alike (step s x).state (step t x).state ∧ seen (step s x) = seen (step t x))
    {s t : σ} (start : alike s t) (xs : List ι) :
    ((kept step skip s xs).map fun (_, o) => seen o) =
        (trace step t ((kept step skip s xs).map Prod.fst)).map seen ∧
      alike (stateAfter step s xs) (stateAfter step t ((kept step skip s xs).map Prod.fst)) := by
  -- the left run goes ahead of the right one at every picked step, and stays alike to where that waits
  induction xs generalizing s t with
  | nil => exact ⟨rfl, start⟩
  | cons x xs ih =>
    cases h : skip x (step s x).answer with
    | true =>
      rw [kept_cons_of_skip step skip h]
      exact ih (hidden start h)
    | false =>
      obtain ⟨after, same⟩ := visible start h
      obtain ⟨later, final⟩ := ih after
      rw [kept_cons_of_not_skip step skip h]
      refine ⟨?_, final⟩
      simp only [List.map_cons, trace, same, later]

end Kept

variable {α : Type}

def Answer.isFailure : Answer α → Bool
  | .reply (.error _) | .counter (.unreadable _) => true
  | _ => false

namespace Command

def isQuery : Command α → Bool
  | .top | .size | .isEmpty | .depth | .name | .bottomUp | .topDown | .json | .describe => true
  | .call called _ => called ∈ ["current", "depth", "len"]
  | .counter c => !c.adjusts
  | .push _ | .offer _ | .pop | .clear => false

/-- A command with this answer failed, only looked, or neither put an item on nor took one off. -/
def isIdle (c : Command α) (a : Answer α) : Bool :=
  a.isFailure || c.isQuery || (c.isPush || c.isPop) && a.item?.isNone

end Command

namespace Stack

variable [Item α] {s : Stack α} {c : Command α}

theorem perform_of_isFailure (h : (s.perform c).answer.isFailure = true) :
    (s.perform c).state = s ∧ (s.perform c).events = [] := by
  cases c with
  | call called arg =>
    simp only [perform, Operation.call] at h ⊢
    cases found : Operation.ofName called arg with
    | ok op =>
      rw [found] at h
      cases h
    | error e => exact ⟨rfl, rfl⟩
  | counter c =>
    cases c with
    | restore text =>
      simp only [perform, Depth.perform] at h
      cases read : Snapshot.ofJson (α := Depth) text with
      | ok d =>
        rw [read] at h
        cases h
      | error flaw => simp only [perform, Depth.perform, read, and_self]
    | _ => cases h
  | _ => cases h

theorem state_of_isQuery (h : c.isQuery = true) : (s.perform c).state = s := by
  cases c with
  | call called arg =>
    rw [state_perform]
    simp only [Command.isQuery, List.mem_cons, List.not_mem_nil, or_false, decide_eq_true_eq] at h
    rcases h with rfl | rfl | rfl <;> rfl
  | counter c =>
    have still : c.adjusts = false := by simpa [Command.isQuery] using h
    simp only [perform, counter_rest still]
  | push x => cases h
  | offer x => cases h
  | pop => cases h
  | clear => cases h
  | _ => rfl

theorem state_of_item?_eq_none (sort : (c.isPush || c.isPop) = true)
    (none : (s.perform c).answer.item? = none) : (s.perform c).state = s := by
  rw [item?_perform] at none
  rw [state_perform]
  cases push : c.isPush with
  | true =>
    rcases c.classified.isPush push with placed | rest
    · -- an item that is put on is answered, too
      cases move : c.move <;> simp_all [answered]
    · rw [rest]
      rfl
  | false =>
    have pop : c.isPop = true := by simpa [push] using sort
    rw [c.classified.isPop] at pop
    rw [Move.eq_take pop] at none ⊢
    have empty : s.items = [] := List.head?_eq_none_iff.mp none
    simp only [apply, empty]

theorem state_of_isIdle (h : c.isIdle (s.perform c).answer = true) : (s.perform c).state = s := by
  simp only [Command.isIdle, Bool.or_eq_true, Bool.and_eq_true, Option.isNone_iff_eq_none] at h
  rcases h with (failure | query) | ⟨sort, none⟩
  · exact (perform_of_isFailure failure).1
  · exact state_of_isQuery query
  · exact state_of_item?_eq_none (by simpa using sort) none

end Stack

namespace Session

def Answer.isFailure : Answer α → Bool
  | .failed _ => true
  | .ran a => a.isFailure
  | .made _ | .done | .flag _ => false

def Step.isIdle : Step α → Answer α → Bool
  | .run c, .ran a => c.isIdle a
  | .equals _, _ => true
  | _, a => a.isFailure

variable {s : Session α} {step : Step α}

theorem update_active (s : Session α) : s.update s.active = s := by
  simp [update, active]

theorem makeFrom_of_isFailure {settings : Settings} (h : (s.makeFrom settings).answer.isFailure = true) :
    (s.makeFrom settings).state = s ∧ (s.makeFrom settings).events = [] := by
  unfold makeFrom at h ⊢
  cases built : settings.build (α := α) with
  | ok x =>
    rw [built] at h
    cases h
  | error e => exact ⟨rfl, rfl⟩

variable [Item α]

theorem perform_of_isFailure (h : (s.perform step).answer.isFailure = true) :
    (s.perform step).state = s ∧ (s.perform step).events = [] := by
  cases step with
  | withCapacity n => exact makeFrom_of_isFailure h
  | build settings => exact makeFrom_of_isFailure h
  | restore text =>
    simp only [perform] at h ⊢
    cases read : Snapshot.ofJson (α := Stack α) text with
    | ok x =>
      rw [read] at h
      cases h
    | error flaw => exact ⟨rfl, rfl⟩
  | use slot =>
    simp only [perform] at h ⊢
    split
    · rename_i found
      rw [dif_pos found] at h
      cases h
    · exact ⟨rfl, rfl⟩
  | equals slot =>
    simp only [perform]
    cases s.slots[slot]? <;> exact ⟨rfl, rfl⟩
  | run c =>
    obtain ⟨state, events⟩ := Stack.perform_of_isFailure (s := s.active) (c := c) h
    simp only [perform, state, events, update_active, and_self]
  | new => cases h
  | copy => cases h

theorem state_of_isIdle (h : step.isIdle (s.perform step).answer = true) : (s.perform step).state = s := by
  cases step with
  | equals slot =>
    simp only [perform]
    cases s.slots[slot]? <;> rfl
  | run c => simp only [perform, Stack.state_of_isIdle (s := s.active) (c := c) h, update_active]
  | new => cases h
  | copy => cases h
  | _ => exact (perform_of_isFailure h).1

/-- Idle steps can be left out of a session, all of them or any that are `chosen`: the others do in the
shorter run what they did in the whole one, down to the numbers of the slots, and the session ends the
same. An idle step that failed left everything as it was and logged nothing. -/
theorem outcomes_without_idle (s : Session α) (steps : List (Step α)) (chosen : Step α → Bool) :
    let left := kept perform (fun step a => chosen step && step.isIdle a) s steps
    s.outcomes (left.map Prod.fst) = left.map Prod.snd ∧ s.after (left.map Prod.fst) = s.after steps ∧
      ∀ before step later, steps = before ++ step :: later →
        let o := (s.after before).perform step
        o.answer.isFailure = true → o.state = s.after before ∧ o.events = [] := by
  intro left
  obtain ⟨outcomes, final⟩ := seen_kept perform (fun step a => chosen step && step.isIdle a) Eq id
    (fun {s t step} same skipped => by
      obtain ⟨_, idle⟩ := Bool.and_eq_true_iff.mp skipped
      exact (state_of_isIdle idle).trans same)
    (fun same _ => by rw [same]; exact ⟨rfl, rfl⟩)
    (rfl : s = s) steps
  refine ⟨?_, final.symm, fun before step later _ => perform_of_isFailure⟩
  simpa using outcomes.symm

theorem outcomes_without_idle_failures :
    let five := Count.ofInt 5
    let before : List (Step Count) := [.run (.push five), .copy, .run (.call "peek" none), .run (.push (Count.ofInt 0))]
    let failing : Step Count := .restore "{}"
    let later : List (Step Count) := [.withCapacity (Bounded.clamp 0x8000000000000000), .run (.counter (.restore "[")),
      .run .pop, .run .pop, .run .top, .use 0, .run (.offer (some (Count.ofInt 0)))]
    let steps := before ++ failing :: later
    let left := kept perform (fun step a => step.isIdle a) start steps
    let o := (start.after before).perform failing
    o.answer.isFailure = true ∧ o.state = start.after before ∧ left.length = 5 ∧
      start.outcomes (left.map Prod.fst) = left.map Prod.snd := by
  intro five before failing later steps left o
  have failed : o.answer.isFailure = true := by decide
  obtain ⟨outcomes, _, failures⟩ := outcomes_without_idle start steps fun _ => true
  exact ⟨failed, (failures before failing later rfl failed).1, by decide, outcomes⟩

end Session

end CountedStack
