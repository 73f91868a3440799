import CountedStack.Proofs.Accounting
import CountedStack.Proofs.Equality
import CountedStack.Session

/-!
Steps on many slots come in any order, but each slot does what its stack would do alone on the commands that were
carried out while it was current.
-/

namespace CountedStack

variable {α : Type} [Item α]

theorem Stack.after_of_unchanged {s : Stack α} {cs : List (Command α)} (unchanged : ∀ c ∈ cs, (s.perform c).state = s) :
    s.after cs = s := by
  induction cs with
  | nil => rfl
  | cons c cs ih =>
    obtain ⟨first, others⟩ := List.forall_mem_cons.mp unchanged
    rw [Stack.after_cons, first]
    exact ih others

namespace Session

/-- The stack that a step starts a new slot with; none if it starts no slot, or fails. -/
def fresh? (s : Session α) : Step α → Option (Stack α)
  | .new => some {}
  | .withCapacity n => (Settings.build { capacity := n }).toOption
  | .build settings => settings.build.toOption
  | .restore text => (Snapshot.ofJson text).toOption
  | .copy => some s.active
  | .use _ | .equals _ | .run _ => none

def fresh (s : Session α) : List (Step α) → List (Stack α)
  | [] => []
  | step :: steps => (s.fresh? step).toList ++ fresh (s.perform step).state steps

/-- What a step asks of a slot: of the current one its command, of any other nothing. -/
def asked (slot : Nat) (s : Session α) : Step α → List (Command α)
  | .run c => if s.current = slot then [c] else []
  | _ => []

def commandsOn (slot : Nat) (s : Session α) : List (Step α) → List (Command α)
  | [] => []
  | step :: steps => s.asked slot step ++ commandsOn slot (s.perform step).state steps

/-- What a step did, seen from a slot: the command that it carried out on the slot's stack, if it was one. -/
def onSlot? (slot : Nat) (o : Outcome (Session α) (Answer α)) : Option (Outcome (Stack α) (CountedStack.Answer α)) :=
  match o.answer with
  | .ran a => if o.state.current = slot then some ⟨o.state.active, a, o.events⟩ else none
  | .made _ | .done | .flag _ | .failed _ => none

def doings (slot : Nat) (s : Session α) (steps : List (Step α)) :
    List (Outcome (Stack α) (CountedStack.Answer α)) :=
  (s.outcomes steps).filterMap (onSlot? slot)

section Steps

variable (s : Session α) (step : Step α)

omit [Item α] in
theorem getElem?_current : s.slots[s.current]? = some s.active := List.getElem?_eq_getElem s.current_lt

omit [Item α] in
theorem active_update (x : Stack α) : (s.update x).active = x := by
  simp [active, update]

omit [Item α] in
theorem asked_of_ne {slot : Nat} (other : s.current ≠ slot) : s.asked slot step = [] := by
  cases step with
  | run c => exact if_neg other
  | _ => rfl

omit [Item α] in
theorem asked_current (c : Command α) : s.asked s.current (.run c) = [c] := if_pos rfl

omit [Item α] in
theorem slots_makeFrom (settings : Settings) :
    (s.makeFrom settings).state.slots = s.slots ++ settings.build.toOption.toList := by
  unfold makeFrom
  cases settings.build (α := α) with
  | ok x => rfl
  | error e => exact (List.append_nil _).symm

/-- A step other than a command leaves the slots as they are and may append one. -/
theorem slots_perform (notRun : ∀ c, step ≠ .run c) :
    (s.perform step).state.slots = s.slots ++ (s.fresh? step).toList := by
  cases step with
  | new => rfl
  | copy => rfl
  | withCapacity n => exact s.slots_makeFrom _
  | build settings => exact s.slots_makeFrom _
  | restore text =>
    simp only [perform, fresh?]
    cases Snapshot.ofJson (α := Stack α) text with
    | ok x => rfl
    | error flaw => exact (List.append_nil _).symm
  | use slot =>
    simp only [perform]
    split <;> exact (List.append_nil _).symm
  | equals slot =>
    simp only [perform]
    cases s.slots[slot]? <;> exact (List.append_nil _).symm
  | run c => exact absurd rfl (notRun c)

theorem slots_perform_run (c : Command α) :
    (s.perform (.run c)).state.slots = s.slots.set s.current (s.active.perform c).state := rfl

theorem length_perform :
    (s.perform step).state.slots.length = s.slots.length + (s.fresh? step).toList.length := by
  cases step with
  | run c => exact List.length_set
  | _ => rw [s.slots_perform _ (by simp), List.length_append]

theorem getElem?_perform (slot : Nat) :
    (s.perform step).state.slots[slot]? =
      ((s.slots ++ (s.fresh? step).toList)[slot]?).map (·.after (s.asked slot step)) := by
  cases step with
  | run c =>
    have same : s.slots ++ (s.fresh? (.run c)).toList = s.slots := List.append_nil _
    rw [same, slots_perform_run]
    by_cases current : s.current = slot
    · subst current
      rw [List.getElem?_set_self s.current_lt, s.getElem?_current, asked_current]
      rfl
    · rw [List.getElem?_set_ne current, s.asked_of_ne _ current]
      exact Option.map_id'.symm
  | _ =>
    rw [s.slots_perform _ (by simp)]
    exact Option.map_id'.symm

omit [Item α] in
theorem onSlot?_makeFrom (slot : Nat) (settings : Settings) : onSlot? slot (s.makeFrom settings) = none := by
  unfold makeFrom
  cases settings.build (α := α) <;> rfl

theorem onSlot?_of_ne_run (slot : Nat) (notRun : ∀ c, step ≠ .run c) : onSlot? slot (s.perform step) = none := by
  cases step with
  | new => rfl
  | copy => rfl
  | withCapacity n => exact s.onSlot?_makeFrom slot _
  | build settings => exact s.onSlot?_makeFrom slot _
  | restore text =>
    simp only [perform]
    cases Snapshot.ofJson (α := Stack α) text <;> rfl
  | use other =>
    simp only [perform]
    split <;> rfl
  | equals other =>
    simp only [perform]
    cases s.slots[other]? <;> rfl
  | run c => exact absurd rfl (notRun c)

theorem onSlot?_perform {slot : Nat} {x : Stack α} (holds : s.current = slot → x = s.active) :
    (onSlot? slot (s.perform step)).toList = x.outcomes (s.asked slot step) := by
  cases step with
  | run c =>
    have done : onSlot? slot (s.perform (.run c)) = if s.current = slot then some (s.active.perform c) else none := by
      simp only [onSlot?, perform, active_update]
      rfl
    rw [done]
    by_cases current : s.current = slot
    · rw [if_pos current, holds current, ← current, asked_current]
      rfl
    · rw [if_neg current, s.asked_of_ne _ current]
      rfl
  | _ =>
    rw [s.onSlot?_of_ne_run _ slot (by simp)]
    rfl

end Steps

section Runs

variable (s : Session α)

theorem after_cons (step : Step α) (steps : List (Step α)) :
    s.after (step :: steps) = (s.perform step).state.after steps := rfl

theorem length_after (steps : List (Step α)) :
    (s.after steps).slots.length = s.slots.length + (s.fresh steps).length := by
  induction steps generalizing s with
  | nil => rfl
  | cons step steps ih =>
    rw [after_cons, ih, length_perform, fresh, List.length_append, Nat.add_assoc]

theorem fresh_append (xs ys : List (Step α)) : s.fresh (xs ++ ys) = s.fresh xs ++ (s.after xs).fresh ys := by
  induction xs generalizing s with
  | nil => rfl
  | cons step xs ih => rw [List.cons_append, fresh, fresh, ih, after_cons, List.append_assoc]

theorem doings_cons (slot : Nat) (step : Step α) (steps : List (Step α)) :
    s.doings slot (step :: steps) =
      (onSlot? slot (s.perform step)).toList ++ (s.perform step).state.doings slot steps := by
  unfold doings
  rw [outcomes, trace, List.filterMap_cons]
  cases onSlot? slot (s.perform step) <;> rfl

/-- What a slot holds after one step, whether it has been started yet or not. -/
theorem getElem?_perform_append {slot : Nat} {step : Step α} {later : List (Stack α)} {x : Stack α}
    (start : (s.slots ++ ((s.fresh? step).toList ++ later))[slot]? = some x) :
    ((s.perform step).state.slots ++ later)[slot]? = some (x.after (s.asked slot step)) := by
  have length := s.length_perform step
  rw [← List.append_assoc] at start
  rw [← List.length_append] at length
  by_cases started : slot < (s.perform step).state.slots.length
  · rw [List.getElem?_append_left (length ▸ started)] at start
    rw [List.getElem?_append_left started, getElem?_perform, start]
    rfl
  · have other : s.current ≠ slot := by
      have := s.current_lt
      rw [length, List.length_append] at started
      omega
    rw [List.getElem?_append_right (by omega), ← length] at start
    rw [List.getElem?_append_right (Nat.not_lt.mp started), start, s.asked_of_ne step other]
    rfl

omit [Item α] in
theorem eq_active {slot : Nat} {later : List (Stack α)} {x : Stack α} (start : (s.slots ++ later)[slot]? = some x)
    (current : s.current = slot) : x = s.active := by
  subst current
  rw [List.getElem?_append_left s.current_lt, s.getElem?_current] at start
  exact (Option.some.inj start).symm

theorem slot_after (steps : List (Step α)) {slot : Nat} {x : Stack α}
    (start : (s.slots ++ s.fresh steps)[slot]? = some x) :
    (s.after steps).slots[slot]? = some (x.after (s.commandsOn slot steps)) ∧
      s.doings slot steps = x.outcomes (s.commandsOn slot steps) := by
  induction steps generalizing s x with
  | nil =>
    rw [fresh, List.append_nil] at start
    exact ⟨start, rfl⟩
  | cons step steps ih =>
    obtain ⟨held, done⟩ := ih _ (s.getElem?_perform_append start)
    constructor
    · rw [after_cons, held, commandsOn, Stack.after_append]
    · rw [doings_cons, done, s.onSlot?_perform step (s.eq_active start), commandsOn]
      exact (trace_append ..).symm

end Runs

/-- A copy and its original, as long as no command has changed either. -/
theorem slots_of_unchanged (s : Session α) {later : List (Step α)}
    (unchanged : ∀ slot, slot = s.current ∨ slot = s.slots.length →
      ∀ c ∈ (s.perform .copy).state.commandsOn slot later, (s.active.perform c).state = s.active) :
    let t := (s.perform .copy).state.after later
    t.slots[s.current]? = some s.active ∧ t.slots[s.slots.length]? = some s.active := by
  intro t
  have copied : (s.perform .copy).state.slots = s.slots ++ [s.active] := rfl
  have kept (slot : Nat) (either : slot = s.current ∨ slot = s.slots.length)
      (start : (s.slots ++ [s.active])[slot]? = some s.active) : t.slots[slot]? = some s.active := by
    have long : ((s.perform .copy).state.slots ++ (s.perform .copy).state.fresh later)[slot]? = some s.active := by
      rw [copied, List.getElem?_append_left (List.getElem?_eq_some_iff.mp start).1, start]
    rw [(slot_after _ later long).1, Stack.after_of_unchanged (unchanged slot either)]
  refine ⟨kept _ (.inl rfl) ?_, kept _ (.inr rfl) ?_⟩
  · rw [List.getElem?_append_left s.current_lt, s.getElem?_current]
  · exact List.getElem?_concat_length

theorem equals_of_slots {s : Session α} {slot : Nat} {x : Stack α} (own : s.slots[s.current]? = some x)
    (other : s.slots[slot]? = some x) : (s.perform (.equals slot)).answer = .flag (x == x) := by
  rw [s.getElem?_current] at own
  simp only [perform, other, Option.some.inj own]

/-- In a session that goes on from any point, a slot holds what its stack would come to alone on the commands
that are carried out on the slot, and each of them does what it would do alone. A copy starts as its original
is at that moment. What is not carried out on a slot leaves it as it was. And until one of the two is changed, a
copy is equal to its original, unless there is something in them that is not a number. -/
theorem slots_independent (k : Kind) (s : Session k.Value) (steps : List (Step k.Value)) :
    ((s.after steps).slots.length = s.slots.length + (s.fresh steps).length ∧
      ∀ slot x, (s.slots ++ s.fresh steps)[slot]? = some x →
        (s.after steps).slots[slot]? = some (x.after (s.commandsOn slot steps)) ∧
          s.doings slot steps = x.outcomes (s.commandsOn slot steps)) ∧
    (∀ before since, steps = before ++ .copy :: since →
      (s.slots ++ s.fresh steps)[(s.after before).slots.length]? = some (s.after before).active) ∧
    (∀ slot < s.slots.length, s.commandsOn slot steps = [] → (s.after steps).slots[slot]? = s.slots[slot]?) ∧
    let copied := (s.perform .copy).state
    let t := copied.after steps
    (∀ slot, slot = s.current ∨ slot = s.slots.length →
        ∀ c ∈ copied.commandsOn slot steps, (s.active.perform c).state = s.active) →
      (∀ x ∈ s.active.items, k.hasNaN x = false) →
      (t.current = s.slots.length → (t.perform (.equals s.current)).answer = .flag true) ∧
        (t.current = s.current → (t.perform (.equals s.slots.length)).answer = .flag true) := by
  refine ⟨⟨s.length_after steps, fun _ _ => s.slot_after steps⟩, ?_, ?_, ?_⟩
  · rintro before since rfl
    have started : s.fresh (before ++ .copy :: since) = s.fresh before ++
        (s.after before).active :: ((s.after before).perform .copy).state.fresh since := s.fresh_append before _
    rw [started, ← List.append_assoc, s.length_after, ← List.length_append]
    rw [List.getElem?_append_right (Nat.le_refl _), Nat.sub_self]
    rfl
  · intro slot bound idle
    have start : (s.slots ++ s.fresh steps)[slot]? = some s.slots[slot] := by
      rw [List.getElem?_append_left bound, List.getElem?_eq_getElem bound]
    rw [(s.slot_after steps start).1, idle, List.getElem?_eq_getElem bound]
    rfl
  · intro copied t unchanged numbers
    obtain ⟨original, copy⟩ := s.slots_of_unchanged unchanged
    have equal : (s.active == s.active) = true :=
      s.active.beq_self_iff.mpr fun x member => (k.beq_self_iff x).mpr (numbers x member)
    constructor
    · intro current
      rw [equals_of_slots (current ▸ copy) original, equal]
    · intro current
      rw [equals_of_slots (current ▸ original) copy, equal]

/-- A stack, its copy and a copy of the copy: much is asked of the last one, of the others only what changes
nothing. -/
theorem slots_independent_copies :
    let k : Kind := .option .bool
    let x : k.Value := some false
    let s : Session k.Value := ⟨[⟨"s", [x], ⟨Count.ofInt 0⟩⟩], 0, Nat.zero_lt_one⟩
    let since : List (Step k.Value) := [.run .pop, .run (.push x), .run (.push x), .use 0, .run (.offer none), .use 1]
    let steps := .run .top :: .copy :: since
    let copied := (s.perform .copy).state
    let t := copied.after steps
    ((copied.slots ++ copied.fresh steps)[2]? = some s.active ∧
      t.slots[2]? = some (s.active.after [.pop, .push x, .push x]) ∧
      copied.doings 2 steps = s.active.outcomes [.pop, .push x, .push x]) ∧
    (0 < s.slots.length ∧ s.commandsOn 0 (.copy :: since.take 3) = [] ∧
      (s.after (.copy :: since.take 3)).slots[0]? = s.slots[0]?) ∧
    (∀ slot, slot = s.current ∨ slot = s.slots.length →
      ∀ c ∈ copied.commandsOn slot steps, (s.active.perform c).state = s.active) ∧
    (∀ x ∈ s.active.items, k.hasNaN x = false) ∧ t.current = s.slots.length ∧
    (t.perform (.equals s.current)).answer = .flag true := by
  intro k x s since steps copied t
  have third : (copied.slots ++ copied.fresh steps)[2]? = some s.active :=
    (slots_independent k copied steps).2.1 [.run .top] since rfl
  have asked : copied.commandsOn 2 steps = [.pop, .push x, .push x] := rfl
  have idle : s.commandsOn 0 (.copy :: since.take 3) = [] := rfl
  have unchanged : ∀ slot, slot = s.current ∨ slot = s.slots.length →
      ∀ c ∈ copied.commandsOn slot steps, (s.active.perform c).state = s.active := by
    have original : copied.commandsOn s.current steps = [.offer none] := rfl
    have copy : copied.commandsOn s.slots.length steps = [.top] := rfl
    rintro _ (rfl | rfl)
    · rw [original]
      exact List.forall_mem_singleton.mpr rfl
    · rw [copy]
      exact List.forall_mem_singleton.mpr rfl
  have numbers : ∀ x ∈ s.active.items, k.hasNaN x = false := List.forall_mem_singleton.mpr rfl
  obtain ⟨held, done⟩ := (slots_independent k copied steps).1.2 2 s.active third
  rw [asked] at held done
  refine ⟨⟨third, held, done⟩, ⟨Nat.zero_lt_one, idle, ?_⟩, unchanged, numbers, rfl, ?_⟩
  · exact (slots_independent k s (.copy :: since.take 3)).2.2.1 0 Nat.zero_lt_one idle
  · exact ((slots_independent k s steps).2.2.2 unchanged numbers).1 rfl

end Session

end CountedStack
