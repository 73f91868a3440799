import CountedStack.Proofs.Balance
import CountedStack.Proofs.Emptying

/-! A push asks whether its item is present, and so does a push by name; an offer does not. -/

namespace CountedStack

variable {α : Type} [Item α]

/-- An offer of an absent item would put it on. All other commands are checked by the stack. -/
def Command.Checked : Command α → Prop
  | .offer (some x) => isPresent x = true
  | _ => True

theorem Move.present_of_ofPush {x y : α} (h : (Move.ofPush x).placed? = some y) : isPresent y = true := by
  unfold ofPush at h
  split at h
  · cases h
  · rename_i filled
    cases h
    simp [isPresent, filled]

theorem Command.Checked.present {c : Command α} (checked : c.Checked) {x : α} (h : c.move.placed? = some x) :
    isPresent x = true := by
  cases c with
  | push y => exact Move.present_of_ofPush h
  | offer y =>
    cases y with
    | none => cases h
    | some y =>
      cases h
      exact checked
  | call called arg =>
    simp only [move] at h
    cases found : Operation.ofName called arg with
    | error e =>
      rw [found] at h
      cases h
    | ok op =>
      rw [found] at h
      rcases op with ⟨_ | y⟩ | _ | _ | _ | _
      · cases h
      · exact Move.present_of_ofPush h
      all_goals cases h
  | counter c =>
    simp only [move] at h
    split at h <;> cases h
  | _ => cases h

namespace Stack

def AllPresent (s : Stack α) : Prop := ∀ x ∈ s.items, isPresent x = true

variable {s : Stack α} {cs : List (Command α)}

theorem allPresent_apply {m : Move α} (present : s.AllPresent) (placed : ∀ x, m.placed? = some x → isPresent x = true) :
    (s.apply m).AllPresent := by
  cases m with
  | place x => exact List.forall_mem_cons.mpr ⟨placed x rfl, present⟩
  | take =>
    cases items : s.items with
    | nil => simpa only [apply, items] using present
    | cons x rest =>
      rw [AllPresent, items] at present
      simp only [apply, items]
      exact (List.forall_mem_cons.mp present).2
  | clear => exact List.forall_mem_nil _
  | _ => exact present

theorem allPresent_after (present : s.AllPresent) (checked : ∀ c ∈ cs, c.Checked) : (s.after cs).AllPresent := by
  induction cs generalizing s with
  | nil => exact present
  | cons c cs ih =>
    obtain ⟨first, others⟩ := List.forall_mem_cons.mp checked
    have step : (s.perform c).state.AllPresent := by
      rw [state_perform]
      exact allPresent_apply present fun _ => first.present
    exact ih step others

theorem present_of_answered {c : Command α} (present : s.AllPresent) (checked : c.Checked) {x : α}
    (h : (s.perform c).answer.item? = some x) : isPresent x = true := by
  rw [item?_perform] at h
  cases move : c.move with
  | place y =>
    rw [move] at h
    cases h
    exact checked.present (by rw [move]; rfl)
  | take | look =>
    rw [move] at h
    exact present x (List.mem_of_head? h)
  | clear | adjust | rest =>
    rw [move] at h
    cases h

theorem push_of_isPresent (s : Stack α) {x : α} (present : isPresent x = true) : s.push x = s.place x := by
  rw [push, isAbsent_of_isPresent present]
  exact if_neg Bool.false_ne_true

/-- The counter misses a step down at its lower bound, but not the step up that comes after it. -/
theorem increment_decrement (d : Depth) : d.decrement.increment.value.val = max d.value.val (-2 ^ 63 + 1) := by
  have bottom := d.value.lo_le
  have top := d.value.le_hi
  simp only [Depth.increment, Depth.decrement, Depth.subtract, Depth.value_add]
  omega

theorem push_after_pop (present : s.AllPresent) {x : α} (popped : (s.perform .pop).answer = .item (some x)) :
    let o := (s.perform .pop).state.perform (.push x)
    o.answer = .item (some x) ∧ o.state.name = s.name ∧ o.state.items = s.items ∧
      o.state.depth.value.val = max s.depth.value.val (-2 ^ 63 + 1) := by
  obtain ⟨name, items, depth⟩ := s
  cases items with
  | nil => cases popped
  | cons x rest =>
    cases popped
    have placed := push_of_isPresent ⟨name, rest, depth.decrement⟩ (present x List.mem_cons_self)
    intro o
    have pushed : o = (place ⟨name, rest, depth.decrement⟩ x).map Answer.item := congrArg (·.map Answer.item) placed
    rw [pushed]
    exact ⟨rfl, rfl, rfl, increment_decrement depth⟩

structure Poured (α : Type) where
  source : Stack α
  target : Stack α
  answers : List (Option α)

omit [Item α] in
theorem size_pop {x : α} (popped : s.pop.answer = some x) : s.pop.state.size < s.size := by
  obtain ⟨name, items, depth⟩ := s
  cases items with
  | nil => cases popped
  | cons y rest => exact Nat.lt_succ_self rest.length

/-- Pops items off a stack until none is left and pushes each on another stack. -/
def pour (s t : Stack α) : Poured α :=
  match _popped : s.pop.answer with
  | none => ⟨s, t, []⟩
  | some x =>
    let pushed := t.push x
    let poured := pour s.pop.state pushed.state
    { poured with answers := pushed.answer :: poured.answers }
termination_by s.size
decreasing_by exact size_pop _popped

theorem pour_of_allPresent (present : s.AllPresent) (t : Stack α) :
    s.pour t = ⟨s.after (pops s.size), t.after (s.topDown.map .push), s.topDown.map some⟩ := by
  obtain ⟨name, items, depth⟩ := s
  induction items generalizing depth t with
  | nil =>
    rw [pour]
    rfl
  | cons x rest ih =>
    obtain ⟨first, others⟩ := List.forall_mem_cons.mp present
    have answer : (t.push x).answer = some x := congrArg Outcome.answer (t.push_of_isPresent first)
    have later := ih (t.push x).state depth.decrement others
    rw [pour]
    simp only [pop, later, answer]
    rfl

theorem placed_map_push {xs : List α} (present : ∀ x ∈ xs, isPresent x = true) : placed (xs.map .push) = xs := by
  have each : ∀ x ∈ xs, (Command.push x).move.placed? = some x := by
    intro x member
    simp [Command.move, Move.ofPush, isAbsent_of_isPresent (present x member)]
  calc placed (xs.map .push)
      = xs.filterMap fun x => (Command.push x).move.placed? := List.filterMap_map ..
    _ = xs.filterMap some := List.filterMap_congr each
    _ = xs := List.filterMap_some

theorem after_map_push (t : Stack α) {xs : List α} (present : ∀ x ∈ xs, isPresent x = true) :
    (t.after (xs.map .push)).bottomUp = t.bottomUp ++ xs := by
  have kept : ∀ c ∈ xs.map Command.push, c.isClear = false := by simp [Command.isClear]
  have noPops : popCount (xs.map Command.push) = 0 := by
    rw [popCount, List.countP_eq_zero]
    intro c member
    obtain ⟨x, _, rfl⟩ := List.mem_map.mp member
    rw [← (Command.push x).classified.isPop]
    exact Bool.false_ne_true
  rw [bottomUp, t.items_after_of_pushes kept noPops, placed_map_push present, List.reverse_append,
    List.reverse_reverse]
  rfl

/-- A new stack on which nothing absent was offered holds nothing absent at any point of its run, and no command
answers an absent item. What is popped then goes on again, and only a counter that was at its lower bound shows
it. Poured on any other stack, all items go on, in the order in which they came off. -/
theorem present_after {settings : Settings} (built : settings.build = .ok s) (checked : ∀ c ∈ cs, c.Checked) :
    let t := s.after cs
    (∀ part, part <+: cs → (s.after part).AllPresent) ∧
    (∀ o ∈ s.outcomes cs, ∀ x, o.answer.item? = some x → isPresent x = true) ∧
    (∀ x, (t.perform .pop).answer = .item (some x) →
      let o := (t.perform .pop).state.perform (.push x)
      o.answer = .item (some x) ∧ o.state.name = t.name ∧ o.state.items = t.items ∧
        o.state.depth.value.val = max t.depth.value.val (-2 ^ 63 + 1)) ∧
    ∀ target : Stack α, (t.pour target).source.items = [] ∧ (t.pour target).answers = t.topDown.map some ∧
      (t.pour target).target.name = target.name ∧
      (t.pour target).target.bottomUp = target.bottomUp ++ t.bottomUp.reverse := by
  intro t
  have start : s.AllPresent := by
    rw [Settings.build_eq_ok built]
    exact List.forall_mem_nil _
  have present : t.AllPresent := allPresent_after start checked
  refine ⟨?_, ?_, fun x => push_after_pop present, ?_⟩
  · intro part cut
    exact allPresent_after start fun c member => checked c (cut.subset member)
  · intro o done x answered
    obtain ⟨before, c, since, rfl, rfl⟩ := exists_of_mem_trace done
    obtain ⟨earlier, later⟩ := List.forall_mem_append.mp checked
    exact present_of_answered (allPresent_after start earlier) (later c List.mem_cons_self) answered
  · intro target
    have order : t.bottomUp.reverse = t.topDown := List.reverse_reverse _
    rw [pour_of_allPresent present, t.after_pops, order]
    refine ⟨?_, rfl, target.name_after _, target.after_map_push present⟩
    exact List.drop_length

theorem present_after_nested :
    let zero := Count.ofInt 0
    let s : Stack (Option (List Count)) := {}
    let cs : List (Command (Option (List Count))) := [.push none, .push (some []), .offer none,
      .offer (some (some [zero])), .call "push" (some none), .counter (.assign (Count.ofInt (-2 ^ 63))), .top]
    let t := s.after cs
    let target : Stack (Option (List Count)) := ⟨"t", [none], ⟨zero⟩⟩
    ({} : Settings).build = .ok s ∧ (∀ c ∈ cs, c.Checked) ∧ t.AllPresent ∧ t.items = [some [zero], some []] ∧
      ((t.perform .pop).state.perform (.push (some [zero]))).state.depth.value.val = -2 ^ 63 + 1 ∧
      (t.pour target).target.bottomUp = [none, some [zero], some []] := by
  intro zero s cs t target
  have built : ({} : Settings).build = .ok s := rfl
  have checked : ∀ c ∈ cs, c.Checked := by simp [cs, Command.Checked, isPresent, isAbsent]
  obtain ⟨present, _, again, poured⟩ := present_after built checked
  obtain ⟨_, _, _, depth⟩ := again (some [zero]) rfl
  obtain ⟨_, _, _, items⟩ := poured target
  exact ⟨built, checked, present cs List.prefix_rfl, rfl, depth, items⟩

end Stack

end CountedStack
