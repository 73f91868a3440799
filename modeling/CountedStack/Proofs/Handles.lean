import CountedStack.Ledger

namespace CountedStack.Pool

variable {α : Type}

/-- The two ledgers may differ in whether one handle is held, and in nothing else. -/
structure SameBut (handle : Nat) (l m : Ledger α) : Prop where
  current : m.current = l.current
  accounts : m.accounts = l.accounts
  origins : m.handles.map Handle.stack = l.handles.map Handle.stack
  others : ∀ i, i ≠ handle → m.handles[i]? = l.handles[i]?

namespace SameBut

variable {handle : Nat} {l m k : Ledger α}

theorem symm (h : SameBut handle l m) : SameBut handle m l :=
  ⟨h.current.symm, h.accounts.symm, h.origins.symm, fun i other => (h.others i other).symm⟩

theorem trans (h : SameBut handle l m) (h' : SameBut handle m k) : SameBut handle l k :=
  ⟨h'.current.trans h.current, h'.accounts.trans h.accounts, h'.origins.trans h.origins,
    fun i other => (h'.others i other).trans (h.others i other)⟩

theorem stack_release (handles : List Handle) (i : Nat) :
    (handles.modify i fun h => { h with held := false }).map Handle.stack = handles.map Handle.stack := by
  apply List.ext_getElem?
  intro j
  rw [List.getElem?_map, List.getElem?_map, List.getElem?_modify]
  cases handles[j]? with
  | none => rfl
  | some h =>
    simp only [Option.map_eq_map, Option.map_some]
    split <;> rfl

theorem drop (l : Ledger α) (handle : Nat) : SameBut handle l (l.drop handle) := by
  unfold Ledger.drop
  split
  · refine ⟨rfl, rfl, stack_release l.handles handle, ?_⟩
    intro i other
    rw [List.getElem?_modify]
    simp [Ne.symm other]
  · exact ⟨rfl, rfl, rfl, fun _ _ => rfl⟩

theorem length_handles (h : SameBut handle l m) : m.handles.length = l.handles.length := by
  simpa only [List.length_map] using congrArg List.length h.origins

theorem subject_eq (h : SameBut handle l m) : m.subject = l.subject := by
  have stack := congrArg (·[l.current]?) h.origins
  simp only [List.getElem?_map] at stack
  unfold Ledger.subject
  rw [h.current]
  cases later : m.handles[l.current]? <;> cases earlier : l.handles[l.current]? <;> simp_all

theorem holds_eq (h : SameBut handle l m) {i : Nat} (other : i ≠ handle) : m.holds i = l.holds i := by
  unfold Ledger.holds
  rw [h.others i other]

theorem append (h : SameBut handle l m) (given : Handle) (accounts : List (Account α)) :
    SameBut handle ⟨l.handles ++ [given], l.handles.length, accounts⟩
      ⟨m.handles ++ [given], m.handles.length, accounts⟩ where
  current := h.length_handles
  accounts := rfl
  origins := by simp only [List.map_append, h.origins]
  others i other := by
    simp only [List.getElem?_append, h.length_handles, h.others i other]

theorem follow (h : SameBut handle l m) {step : Step α} (unused : step ≠ .use handle) :
    SameBut handle (l.follow step) (m.follow step) := by
  have opened (s : Stack α) : SameBut handle (l.opened s) (m.opened s) := by
    unfold Ledger.opened
    rw [h.accounts]
    exact h.append _ _
  cases step with
  | new => exact opened {}
  | prepare cs => exact opened {}
  | build settings =>
    simp only [Ledger.follow]
    cases settings.build with
    | ok s => exact opened s
    | error e => exact h
  | share =>
    simp only [Ledger.follow, Ledger.share, h.subject_eq, h.accounts]
    exact h.append _ _
  | use i =>
    have other : i ≠ handle := fun same => unused (same ▸ rfl)
    simp only [Ledger.follow, Ledger.use, h.holds_eq other]
    split
    · exact ⟨rfl, h.accounts, h.origins, h.others⟩
    · exact h
  | drop i =>
    by_cases same : i = handle
    · subst same
      exact (drop l i).symm.trans (h.trans (drop m i))
    · simp only [Ledger.follow, Ledger.drop, h.current, h.holds_eq same]
      split
      · refine ⟨rfl, h.accounts, ?_, ?_⟩
        · simp only [stack_release, h.origins]
        · intro j other
          simp only [List.getElem?_modify, h.others j other]
      · exact h
  | _ => exact h

theorem note (h : SameBut handle l m) {step : Step α} (unused : step ≠ .use handle) :
    SameBut handle (l.note step) (m.note step) := by
  have follows := h.follow unused
  unfold Ledger.note Ledger.enter
  rw [follows.subject_eq, follows.accounts]
  split
  · exact ⟨follows.current, rfl, follows.origins, follows.others⟩
  · exact follows

theorem after (h : SameBut handle l m) {steps : List (Step α)} (unused : ∀ step ∈ steps, step ≠ .use handle) :
    SameBut handle (l.after steps) (m.after steps) := by
  induction steps generalizing l m with
  | nil => exact h
  | cons step steps ih =>
    obtain ⟨first, others⟩ := List.forall_mem_cons.mp unused
    exact ih (h.note first) others

end SameBut

namespace Ledger

variable {l m : Ledger α}

theorem after_append (l : Ledger α) (xs ys : List (Step α)) : l.after (xs ++ ys) = (l.after xs).after ys :=
  List.foldl_append ..

theorem subject_drop (l : Ledger α) (handle : Nat) : (l.drop handle).subject = l.subject :=
  (SameBut.drop l handle).subject_eq

end Ledger

/-- The two ledgers may differ in which of two handles of one stack is current, and in nothing else. -/
structure SameSubject (a b : Nat) (l m : Ledger α) : Prop where
  handles : m.handles = l.handles
  accounts : m.accounts = l.accounts
  subject : m.subject = l.subject
  current : m.current = l.current ∨ l.current = a ∧ m.current = b

namespace SameSubject

variable {a b : Nat} {l m : Ledger α}

theorem of_eq (same : m = l) : SameSubject a b l m := by
  subst same
  exact ⟨rfl, rfl, rfl, .inl rfl⟩

theorem opened_eq (h : SameSubject a b l m) (s : Stack α) : m.opened s = l.opened s := by
  simp only [Ledger.opened, h.handles, h.accounts]

theorem share_eq (h : SameSubject a b l m) : m.share = l.share := by
  simp only [Ledger.share, h.handles, h.accounts, h.subject]

theorem holds_eq (h : SameSubject a b l m) (handle : Nat) : m.holds handle = l.holds handle := by
  unfold Ledger.holds
  rw [h.handles]

theorem use (h : SameSubject a b l m) (handle : Nat) : SameSubject a b (l.use handle) (m.use handle) := by
  unfold Ledger.use
  rw [h.holds_eq]
  split
  · exact of_eq (by rw [h.handles, h.accounts])
  · exact h

theorem drop (h : SameSubject a b l m) {handle : Nat} (first : handle ≠ a) (second : handle ≠ b) :
    SameSubject a b (l.drop handle) (m.drop handle) := by
  have free : handle ≠ m.current ↔ handle ≠ l.current := by
    rcases h.current with same | ⟨old, new⟩
    · rw [same]
    · rw [old, new]
      exact ⟨fun _ => first, fun _ => second⟩
  have subject : (m.drop handle).subject = (l.drop handle).subject := by
    rw [m.subject_drop, l.subject_drop, h.subject]
  simp only [Ledger.drop, h.holds_eq, free] at subject ⊢
  by_cases given : handle ≠ l.current ∧ l.holds handle = true
  · simp only [if_pos given] at subject ⊢
    exact ⟨by rw [h.handles], h.accounts, subject, h.current⟩
  · simp only [if_neg given]
    exact h

theorem note (h : SameSubject a b l m) {step : Step α} (first : step ≠ .drop a) (second : step ≠ .drop b) :
    SameSubject a b (l.note step) (m.note step) := by
  have follows : SameSubject a b (l.follow step) (m.follow step) := by
    cases step with
    | new => exact of_eq (h.opened_eq {})
    | prepare cs => exact of_eq (h.opened_eq {})
    | build settings =>
      simp only [Ledger.follow]
      cases settings.build with
      | ok s => exact of_eq (h.opened_eq s)
      | error e => exact h
    | share => exact of_eq h.share_eq
    | use i => exact h.use i
    | drop i => exact h.drop (fun same => first (same ▸ rfl)) (fun same => second (same ▸ rfl))
    | _ => exact h
  unfold Ledger.note
  split
  · refine ⟨follows.handles, ?_, follows.subject, follows.current⟩
    simp only [Ledger.enter, follows.subject, follows.accounts]
  · exact follows

theorem after (h : SameSubject a b l m) {steps : List (Step α)}
    (kept : ∀ step ∈ steps, step ≠ .drop a ∧ step ≠ .drop b) : SameSubject a b (l.after steps) (m.after steps) := by
  induction steps generalizing l m with
  | nil => exact h
  | cons step steps ih =>
    obtain ⟨⟨first, second⟩, others⟩ := List.forall_mem_cons.mp kept
    exact ih (h.note first second) others

end SameSubject

end CountedStack.Pool
