import CountedStack.Proofs.Accounting
import CountedStack.Proofs.Handles

/-!
However handles come and go, a stack does what it would do by itself on the steps in its account, also behind a
block that throws, where the lock is assumed to be released (see `Pool`).
-/

namespace CountedStack.Pool

variable {α : Type} [Item α]

namespace Account

theorem stack_enter (a : Account α) (step : Step α) : (a.enter step).stack = a.stack.after step.commands := by
  simp only [stack, enter, List.flatMap_append, List.flatMap_singleton, Stack.after_append]

theorem stateAfter_alone (s : Stack α) (steps : List (Step α)) :
    stateAfter Step.alone s steps = s.after (steps.flatMap Step.commands) := by
  induction steps generalizing s with
  | nil => rfl
  | cons step steps ih =>
    rw [List.flatMap_cons, Stack.after_append]
    exact ih (s.after step.commands)

theorem outcomes_enter (a : Account α) (step : Step α) :
    (a.enter step).outcomes = a.outcomes ++ [step.alone a.stack] := by
  simp only [outcomes, enter, trace_append, trace, stateAfter_alone]
  rfl

end Account

namespace Ledger

variable (l : Ledger α) (i : Nat)

theorem outcomes_opened (s : Stack α) : (l.opened s).outcomes i = l.outcomes i := by
  unfold outcomes opened
  rw [List.getElem?_append]
  split
  · rfl
  · -- a new account has nothing in it yet
    rename_i beyond
    rw [List.getElem?_eq_none (Nat.not_lt.mp beyond), List.getElem?_singleton]
    split <;> rfl

theorem outcomes_follow (step : Step α) : (l.follow step).outcomes i = l.outcomes i := by
  cases step with
  | new => exact l.outcomes_opened i {}
  | prepare cs => exact l.outcomes_opened i {}
  | build settings =>
    simp only [follow]
    cases settings.build with
    | ok s => exact l.outcomes_opened i s
    | error e => rfl
  | use handle =>
    simp only [follow, use]
    split <;> rfl
  | drop handle =>
    simp only [follow, drop]
    split <;> rfl
  | _ => rfl

end Ledger

/-- The ledger has the handles of the pool, and its accounts come to the pool's stacks. -/
structure Tracks (p : Pool α) (l : Ledger α) : Prop where
  current : p.current = l.current
  handles : p.handles = l.handles.map Handle.leadsTo
  store : p.store = l.accounts.map Account.stack

theorem tracks_start : Tracks (start : Pool α) Ledger.start := ⟨rfl, rfl, rfl⟩

namespace Tracks

variable {p : Pool α} {l : Ledger α}

theorem handle (h : Tracks p l) (i : Nat) : p.handles[i]? = (l.handles[i]?).map Handle.leadsTo := by
  rw [h.handles, List.getElem?_map]

theorem leadsTo_eq_some {h : Handle} {stack : Nat} : h.leadsTo = some stack ↔ h.held = true ∧ h.stack = stack := by
  unfold Handle.leadsTo
  split <;> simp_all

theorem target_eq (h : Tracks p l) : p.target = l.subject := by
  have selected := p.selected
  rw [h.current, h.handle] at selected
  obtain ⟨handle, found, leads⟩ := Option.map_eq_some_iff.mp selected
  unfold Ledger.subject
  rw [found]
  exact (leadsTo_eq_some.mp leads).2.symm

theorem length_store (h : Tracks p l) : p.store.length = l.accounts.length := by
  rw [h.store, List.length_map]

theorem subject_account (h : Tracks p l) :
    ∃ a, l.accounts[l.subject]? = some a ∧ a.stack = p.active := by
  have active := p.getElem?_target
  rw [h.store, List.getElem?_map, h.target_eq] at active
  exact Option.map_eq_some_iff.mp active

theorem holds_iff (h : Tracks p l) (handle : Nat) :
    l.holds handle = true ↔ ∃ stack, p.handles[handle]? = some (some stack) := by
  rw [h.handle]
  unfold Ledger.holds
  cases l.handles[handle]? with
  | none => simp
  | some found => simp [leadsTo_eq_some]

theorem add (h : Tracks p l) (s : Stack α) : Tracks (p.add s) (l.opened s) where
  current := by simp [Pool.add, Ledger.opened, h.handles]
  handles := by simp [Pool.add, Ledger.opened, h.handles, h.length_store, Handle.leadsTo]
  store := by
    have blank : ({ start := s } : Account α).stack = s := rfl
    simp only [Pool.add, Ledger.opened, h.store, List.map_append, List.map_cons, List.map_nil, blank]

theorem enter (h : Tracks p l) (step : Step α) :
    Tracks (p.update (p.active.after step.commands)) (l.enter step) where
  current := h.current
  handles := h.handles
  store := by
    obtain ⟨a, found, active⟩ := h.subject_account
    apply List.ext_getElem?
    intro i
    simp only [Pool.update, Ledger.enter, h.target_eq, h.store, List.getElem?_set, List.getElem?_map,
      List.getElem?_modify, List.length_map]
    split
    · rename_i same
      subst same
      have bound : l.subject < l.accounts.length := (List.getElem?_eq_some_iff.mp found).1
      rw [found, if_pos bound]
      simp [a.stack_enter, active]
    · cases l.accounts[i]? <;> rfl

theorem share (h : Tracks p l) : Tracks p.addHandle l.share where
  current := by simp [addHandle, Ledger.share, h.handles]
  handles := by simp [addHandle, Ledger.share, h.handles, h.target_eq, Handle.leadsTo]
  store := h.store

theorem use (h : Tracks p l) (handle : Nat) : Tracks (p.select handle).state (l.use handle) := by
  unfold select Ledger.use
  split
  · rename_i target found
    have held : l.holds handle = true := (h.holds_iff handle).mpr ⟨target, found⟩
    rw [if_pos held]
    exact ⟨rfl, h.handles, h.store⟩
  · rename_i other
    have lost : ¬ l.holds handle = true := by
      rw [h.holds_iff]
      rintro ⟨stack, found⟩
      exact other stack found
    rw [if_neg lost]
    exact h

theorem drop (h : Tracks p l) (handle : Nat) : Tracks (p.dropHandle handle).state (l.drop handle) := by
  have same : (handle ≠ p.current ∧ (p.handles[handle]?.join).isSome = true) ↔
      handle ≠ l.current ∧ l.holds handle = true := by
    rw [h.current, h.holds_iff, Option.isSome_iff_exists]
    simp only [Option.join_eq_some_iff]
  unfold dropHandle Ledger.drop
  split
  · rename_i held
    rw [if_pos (same.mp held)]
    refine ⟨h.current, ?_, h.store⟩
    apply List.ext_getElem?
    intro i
    simp only [h.handles, List.getElem?_set, List.getElem?_map, List.getElem?_modify, List.length_map]
    split
    · rename_i equal
      subst equal
      cases found : l.handles[handle]? with
      | none =>
        have beyond := List.getElem?_eq_none_iff.mp found
        simp [Nat.not_lt.mpr beyond]
      | some given =>
        have bound := (List.getElem?_eq_some_iff.mp found).1
        simp [bound, Handle.leadsTo]
    · cases l.handles[i]? <;> rfl
  · rename_i kept
    rw [if_neg fun held => kept (same.mpr held)]
    exact h

theorem asked (h : Tracks p l) {step : Step α} (asks : step.asks = true) :
    ∃ q, Tracks q (l.follow step) ∧
      (p.perform step).state = q.update (q.active.after step.commands) ∧
      step.onStack? (p.perform step).answer = (step.alone q.active).answer ∧
      (p.perform step).events = (step.alone q.active).events := by
  cases step with
  | prepare cs =>
    refine ⟨p.add {}, h.add {}, ?_, rfl, ?_⟩
    · rw [active_add, update_add]
      rfl
    · rw [active_add]
      rfl
  | run c => exact ⟨p, h, rfl, rfl, (List.append_nil _).symm⟩
  | block cs => exact ⟨p, h, rfl, rfl, rfl⟩
  | throwing cs => exact ⟨p, h, rfl, rfl, rfl⟩
  | describe => exact ⟨p, h, p.update_active.symm, rfl, rfl⟩
  | _ => cases asks

theorem perform (h : Tracks p l) (step : Step α) : Tracks (p.perform step).state (l.note step) := by
  unfold Ledger.note
  cases asks : step.asks with
  | true =>
    obtain ⟨q, tracks, state, _⟩ := h.asked asks
    rw [state]
    exact tracks.enter step
  | false =>
    cases step with
    | new => exact h.add {}
    | build settings =>
      simp only [Pool.perform, Ledger.follow]
      cases settings.build with
      | ok s => exact h.add s
      | error e => exact h
    | share => exact h.share
    | use handle => exact h.use handle
    | drop handle => exact h.drop handle
    | _ => cases asks

theorem after (h : Tracks p l) (steps : List (Step α)) : Tracks (p.after steps) (l.after steps) := by
  induction steps generalizing p l with
  | nil => exact h
  | cons step steps ih => exact ih (h.perform step)

theorem outcomes_enter (h : Tracks p l) (step : Step α) (i : Nat) :
    (l.enter step).outcomes i = l.outcomes i ++ if p.target = i then [step.alone p.active] else [] := by
  obtain ⟨a, found, active⟩ := h.subject_account
  unfold Ledger.outcomes Ledger.enter
  rw [h.target_eq, List.getElem?_modify]
  split
  · rename_i same
    subst same
    rw [found, ← active]
    exact a.outcomes_enter step
  · rw [List.append_nil]
    cases l.accounts[i]? <;> rfl

end Tracks

theorem dealings_concat (p : Pool α) (steps : List (Step α)) (step : Step α) (i : Nat) :
    p.dealings (steps ++ [step]) i = p.dealings steps i ++
      let o := (p.after steps).perform step
      if step.asks && o.state.target == i then [⟨o.state.active, step.onStack? o.answer, o.events⟩]
      else [] := by
  have run : p.outcomes (steps ++ [step]) = p.outcomes steps ++ [(p.after steps).perform step] :=
    trace_append ..
  unfold dealings
  rw [run, List.zip_append (length_trace ..).symm, List.filterMap_append]
  congr 1
  simp only [List.zip_cons_cons, List.zip_nil_right, List.filterMap_cons, List.filterMap_nil]
  split <;> simp_all

theorem dealings_eq_accounts (steps : List (Step α)) (i : Nat) :
    (start : Pool α).dealings steps i = (Ledger.start.after steps).outcomes i := by
  induction steps using List.reverseRecOn with
  | nil =>
    cases i with
    | zero => rfl
    | succ i => rfl
  | append_singleton steps step ih =>
    have tracks := (tracks_start (α := α)).after steps
    have noted : Ledger.start.after (steps ++ [step]) = (Ledger.start.after steps).note step :=
      Ledger.after_append ..
    rw [dealings_concat, ih, noted]
    unfold Ledger.note
    cases asks : step.asks with
    | true =>
      -- the step goes into the account of the stack that is active once the handles are followed
      obtain ⟨q, follows, state, answer, events⟩ := tracks.asked asks
      have alone : (⟨q.active.after step.commands, (step.alone q.active).answer, (step.alone q.active).events⟩ :
          Outcome (Stack α) (Option (Answer α))) = step.alone q.active := rfl
      simp only [Bool.true_and, state, answer, events, active_update, alone, if_true]
      rw [follows.outcomes_enter, Ledger.outcomes_follow]
      simp only [update, beq_iff_eq]
    | false =>
      simp only [Bool.false_and, Bool.false_eq_true, if_false, List.append_nil]
      exact (Ledger.outcomes_follow _ i step).symm

theorem dealings_drop (before : List (Step α)) {handle : Nat} {later : List (Step α)}
    (unused : ∀ step ∈ later, step ≠ .use handle) (i : Nat) :
    (start : Pool α).dealings (before ++ .drop handle :: later) i = start.dealings (before ++ later) i := by
  simp only [dealings_eq_accounts, Ledger.after_append]
  generalize Ledger.start.after before = l
  have dropped : l.after (.drop handle :: later) = (l.drop handle).after later := rfl
  have same := (SameBut.drop l handle).after unused
  simp only [dropped, Ledger.outcomes, same.accounts]

theorem dealings_use (before : List (Step α)) {handle : Nat} {later : List (Step α)}
    (same : ((start : Pool α).after before).handles[handle]? = some (some (start.after before).target))
    (kept : ∀ step ∈ later, step ≠ .drop ((start : Pool α).after before).current ∧ step ≠ .drop handle) (i : Nat) :
    (start : Pool α).dealings (before ++ .use handle :: later) i = start.dealings (before ++ later) i := by
  have tracks := (tracks_start (α := α)).after before
  simp only [dealings_eq_accounts, Ledger.after_append]
  generalize Ledger.start.after before = l at tracks
  have held : l.holds handle = true := (tracks.holds_iff handle).mpr ⟨_, same⟩
  have used : l.use handle = { l with current := handle } := if_pos held
  have subject : (l.use handle).subject = l.subject := by
    rw [tracks.handle, tracks.target_eq] at same
    obtain ⟨given, found, leads⟩ := Option.map_eq_some_iff.mp same
    rw [used]
    unfold Ledger.subject
    simp only [found]
    exact (Tracks.leadsTo_eq_some.mp leads).2
  have switched : l.after (.use handle :: later) = (l.use handle).after later := rfl
  have alike : SameSubject l.current handle l (l.use handle) := by
    rw [used] at subject ⊢
    exact ⟨rfl, rfl, subject, .inr ⟨rfl, rfl⟩⟩
  rw [tracks.current] at kept
  simp only [switched, Ledger.outcomes, (alike.after kept).accounts]

/-- The handles lead to the stacks they were made for, and what is done with each of these stacks is what
the stack does alone on the steps in its account. Dropping a handle that is not used again changes
nothing, nor does going over to another handle of the same stack, as long as neither of the two is
dropped. -/
theorem dealings_eq_outcomes (steps : List (Step α)) :
    let p := (start : Pool α).after steps
    let l := (Ledger.start : Ledger α).after steps
    p.current = l.current ∧ p.handles = l.handles.map Handle.leadsTo ∧
      p.store = l.accounts.map Account.stack ∧ (∀ i, start.dealings steps i = l.outcomes i) ∧
      (∀ handle later, (∀ step ∈ later, step ≠ .use handle) →
        ∀ i, start.dealings (steps ++ .drop handle :: later) i = start.dealings (steps ++ later) i) ∧
      ∀ handle later, p.handles[handle]? = some (some p.target) →
        (∀ step ∈ later, step ≠ .drop p.current ∧ step ≠ .drop handle) →
        ∀ i, start.dealings (steps ++ .use handle :: later) i = start.dealings (steps ++ later) i := by
  intro p l
  obtain ⟨current, handles, store⟩ : Tracks p l := tracks_start.after steps
  exact ⟨current, handles, store, dealings_eq_accounts steps,
    fun _ _ unused => dealings_drop steps unused, fun _ _ same kept => dealings_use steps same kept⟩

theorem dealings_eq_outcomes_throwing :
    let five := Count.ofInt 5
    let steps : List (Step Count) := [.run (.push five), .share, .throwing [.pop, .push (Count.ofInt 7)]]
    let later : List (Step Count) := [.run .pop, .share, .block [.size, .push five]]
    let p := (start : Pool Count).after steps
    (∀ step ∈ later, step ≠ .use 0) ∧ p.handles[0]? = some (some p.target) ∧
      (∀ step ∈ later, step ≠ .drop p.current ∧ step ≠ .drop 0) ∧
      start.dealings (steps ++ .drop 0 :: later) 0 = start.dealings (steps ++ later) 0 ∧
      start.dealings (steps ++ .use 0 :: later) 0 = start.dealings (steps ++ later) 0 ∧
      (start.dealings (steps ++ later) 0).map (·.state.size) = [1, 1, 0, 1] := by
  intro five steps later p
  have unused : ∀ step ∈ later, step ≠ .use 0 := by simp [later]
  have same : p.handles[0]? = some (some p.target) := rfl
  have kept : ∀ step ∈ later, step ≠ .drop p.current ∧ step ≠ .drop 0 := by simp [later]
  obtain ⟨_, _, _, _, drop, use⟩ := dealings_eq_outcomes steps
  exact ⟨unused, same, kept, drop 0 later unused 0, use 0 later same kept 0, by decide⟩

end CountedStack.Pool
