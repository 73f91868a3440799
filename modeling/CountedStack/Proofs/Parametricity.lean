import CountedStack.Proofs.Move
import Mathlib.Data.List.Forall2

/-!
A stack looks at an item only when it is pushed, to see whether it is absent. So two runs that are asked the same
of corresponding items go on alike, and their answers correspond.
-/

namespace CountedStack

variable {α β : Type}

/-- The same command: what is pushed corresponds by `P`, what is offered by `S`. The commands that show the
text of the items are left out. -/
inductive Command.Alike (P S : α → β → Prop) : Command α → Command β → Prop where
  | push {x : α} {y : β} : P x y → Alike P S (.push x) (.push y)
  | offer {x : Option α} {y : Option β} : Option.Rel S x y → Alike P S (.offer x) (.offer y)
  | pop : Alike P S .pop .pop
  | top : Alike P S .top .top
  | size : Alike P S .size .size
  | isEmpty : Alike P S .isEmpty .isEmpty
  | depth : Alike P S .depth .depth
  | name : Alike P S .name .name
  | clear : Alike P S .clear .clear
  | bottomUp : Alike P S .bottomUp .bottomUp
  | topDown : Alike P S .topDown .topDown
  /-- The argument of a call is not looked at unless it is to be pushed. -/
  | call (called : String) {x : Option α} {y : Option β} :
      (called = "push" → Option.Rel P x y) → Alike P S (.call called x) (.call called y)
  | counter (c : Depth.Command) : Alike P S (.counter c) (.counter c)

theorem Command.Alike.imp {P P' S : α → β → Prop} {c : Command α} {d : Command β} (h : c.Alike P S d)
    (weaker : ∀ {x y}, P x y → P' x y) : c.Alike P' S d := by
  cases h with
  | push items => exact .push (weaker items)
  | offer items => exact .offer items
  | call called args =>
    refine .call called fun pushed => ?_
    cases args pushed with
    | none => exact .none
    | some items => exact .some (weaker items)
  | _ => constructor

/-- Items that correspond, both absent or both present. -/
def PushedAlike [Absence α] [Absence β] (S : α → β → Prop) (x : α) (y : β) : Prop :=
  S x y ∧ isAbsent x = isAbsent y

abbrev Command.Rel [Absence α] [Absence β] (S : α → β → Prop) : Command α → Command β → Prop :=
  Command.Alike (PushedAlike S) S

inductive Operation.Rel [Absence α] [Absence β] (S : α → β → Prop) : Operation α → Operation β → Prop where
  | push {x : Option α} {y : Option β} : Option.Rel (PushedAlike S) x y → Rel S (.push x) (.push y)
  | pop : Rel S .pop .pop
  | current : Rel S .current .current
  | depth : Rel S .depth .depth
  | len : Rel S .len .len

inductive Reply.Rel (S : α → β → Prop) : Reply α → Reply β → Prop where
  | item {x : α} {y : β} : S x y → Rel S (.item x) (.item y)
  | int (n : Int) : Rel S (.int n) (.int n)
  | nil : Rel S .nil .nil

inductive Answer.Rel (S : α → β → Prop) : Answer α → Answer β → Prop where
  | done : Rel S .done .done
  | item {x : Option α} {y : Option β} : Option.Rel S x y → Rel S (.item x) (.item y)
  | count (n : Int) : Rel S (.count n) (.count n)
  | flag (b : Bool) : Rel S (.flag b) (.flag b)
  | text (t : String) : Rel S (.text t) (.text t)
  | items {xs : List α} {ys : List β} : List.Forall₂ S xs ys → Rel S (.items xs) (.items ys)
  | reply {r : Reply α} {q : Reply β} : r.Rel S q → Rel S (.reply (.ok r)) (.reply (.ok q))
  | unknown (e : UnknownOperation) : Rel S (.reply (.error e)) (.reply (.error e))
  | counter (a : Depth.Answer) : Rel S (.counter a) (.counter a)

structure Stack.Rel (S : α → β → Prop) (s : Stack α) (t : Stack β) : Prop where
  name : s.name = t.name
  items : List.Forall₂ S s.items t.items
  depth : s.depth = t.depth

structure Outcome.Rel {γ δ : Type} (S : α → β → Prop) (A : γ → δ → Prop) (o : Outcome (Stack α) γ)
    (p : Outcome (Stack β) δ) : Prop where
  state : o.state.Rel S p.state
  answer : A o.answer p.answer
  events : o.events = p.events

theorem Outcome.Rel.map {γ δ γ' δ' : Type} {S : α → β → Prop} {A : γ → δ → Prop} {B : γ' → δ' → Prop}
    {o : Outcome (Stack α) γ} {p : Outcome (Stack β) δ} (h : o.Rel S A p) {f : γ → γ'} {g : δ → δ'}
    (answers : ∀ {a b}, A a b → B (f a) (g b)) : (o.map f).Rel S B (p.map g) :=
  ⟨h.state, answers h.answer, h.events⟩

theorem Operation.rel_ofName [Absence α] [Absence β] {S : α → β → Prop} {called : String} {x : Option α}
    {y : Option β} (args : called = "push" → Option.Rel (PushedAlike S) x y) :
    (∃ op op', ofName called x = .ok op ∧ ofName called y = .ok op' ∧ op.Rel S op') ∨
      ∃ e, ofName called x = .error e ∧ ofName called y = .error e := by
  rcases ofName_cases called x with
    ⟨rfl, found⟩ | ⟨rfl, found⟩ | ⟨rfl, found⟩ | ⟨rfl, found⟩ | ⟨rfl, found⟩ | ⟨unknown, found⟩
  · exact .inl ⟨_, _, found, rfl, .push (args rfl)⟩
  · exact .inl ⟨_, _, found, rfl, .pop⟩
  · exact .inl ⟨_, _, found, rfl, .current⟩
  · exact .inl ⟨_, _, found, rfl, .depth⟩
  · exact .inl ⟨_, _, found, rfl, .len⟩
  · exact .inr ⟨_, found, ofName_of_not_mem unknown y⟩

theorem Reply.rel_ofOption {S : α → β → Prop} {x : Option α} {y : Option β} (h : Option.Rel S x y) :
    (Reply.ofOption x).Rel S (Reply.ofOption y) := by
  cases h with
  | some h => exact .item h
  | none => exact .nil

namespace Stack

variable {S : α → β → Prop} {s : Stack α} {t : Stack β}

namespace Rel

theorem size_eq (h : s.Rel S t) : s.size = t.size := h.items.length_eq

theorem isEmpty_eq (h : s.Rel S t) : s.isEmpty = t.isEmpty := by
  have items := h.items
  unfold isEmpty
  generalize s.items = xs, t.items = ys at items
  cases items <;> rfl

theorem top? (h : s.Rel S t) : Option.Rel S s.top? t.top? := by
  have items := h.items
  unfold Stack.top?
  generalize s.items = xs, t.items = ys at items
  cases items with
  | nil => exact .none
  | cons head _ => exact .some head

theorem bottomUp (h : s.Rel S t) : List.Forall₂ S s.bottomUp t.bottomUp := List.forall₂_reverse_iff.mpr h.items

theorem place (h : s.Rel S t) {x : α} {y : β} (item : S x y) :
    (s.place x).Rel S (Option.Rel S) (t.place y) where
  state := ⟨h.name, .cons item h.items, by simp only [Stack.place, h.depth]⟩
  answer := .some item
  events := by simp only [Stack.place, h.depth]

theorem ignorePush (h : s.Rel S t) : s.ignorePush.Rel S (Option.Rel S) t.ignorePush := ⟨h, .none, rfl⟩

theorem push [Absence α] [Absence β] (h : s.Rel S t) {x : α} {y : β} (items : PushedAlike S x y) :
    (s.push x).Rel S (Option.Rel S) (t.push y) := by
  obtain ⟨item, absent⟩ := items
  unfold Stack.push
  rw [absent]
  split
  · exact h.ignorePush
  · exact h.place item

theorem offer (h : s.Rel S t) {x : Option α} {y : Option β} (items : Option.Rel S x y) :
    (s.offer x).Rel S (Option.Rel S) (t.offer y) := by
  cases items with
  | some item => exact h.place item
  | none => exact h.ignorePush

theorem pop (h : s.Rel S t) : s.pop.Rel S (Option.Rel S) t.pop := by
  obtain ⟨name, items, depth⟩ := s
  obtain ⟨name', items', depth'⟩ := t
  obtain ⟨rfl, same, rfl⟩ := h
  cases same with
  | nil => exact ⟨⟨rfl, .nil, rfl⟩, .none, rfl⟩
  | cons head rest => exact ⟨⟨rfl, rest, rfl⟩, .some head, rfl⟩

theorem clear (h : s.Rel S t) : s.clear.Rel S Eq t.clear where
  state := ⟨h.name, .nil, by simp only [Stack.clear, h.depth, h.size_eq]⟩
  answer := rfl
  events := by simp only [Stack.clear, h.depth, h.size_eq]

variable [Item α] [Item β]

theorem run (h : s.Rel S t) {op : Operation α} {op' : Operation β} (same : op.Rel S op') :
    (op.run s).Rel S (Reply.Rel S) (op'.run t) := by
  cases same with
  | push args =>
    cases args with
    | none => exact ⟨h, .nil, rfl⟩
    | some items => exact (h.push items).map Reply.rel_ofOption
  | pop => exact h.pop.map Reply.rel_ofOption
  | current => exact ⟨h, Reply.rel_ofOption h.top?, rfl⟩
  | depth =>
    simp only [Operation.run, h.depth]
    exact ⟨h, .int _, rfl⟩
  | len =>
    simp only [Operation.run, h.size_eq]
    exact ⟨h, .int _, rfl⟩

theorem call (h : s.Rel S t) {called : String} {x : Option α} {y : Option β}
    (args : called = "push" → Option.Rel (PushedAlike S) x y) :
    (s.perform (.call called x)).Rel S (Answer.Rel S) (t.perform (.call called y)) := by
  simp only [perform, Operation.call]
  rcases Operation.rel_ofName args with ⟨op, op', left, right, same⟩ | ⟨e, left, right⟩
  · rw [left, right]
    exact (h.run same).map Answer.Rel.reply
  · rw [left, right]
    exact ⟨h, .unknown e, rfl⟩

theorem perform (h : s.Rel S t) {c : Command α} {d : Command β} (same : c.Rel S d) :
    (s.perform c).Rel S (Answer.Rel S) (t.perform d) := by
  cases same with
  | push items => exact (h.push items).map .item
  | offer items => exact (h.offer items).map .item
  | pop => exact h.pop.map .item
  | top => exact ⟨h, .item h.top?, rfl⟩
  | size =>
    simp only [Stack.perform, h.size_eq]
    exact ⟨h, .count _, rfl⟩
  | isEmpty =>
    simp only [Stack.perform, h.isEmpty_eq]
    exact ⟨h, .flag _, rfl⟩
  | depth =>
    simp only [Stack.perform, h.depth]
    exact ⟨h, .count _, rfl⟩
  | name =>
    simp only [Stack.perform, h.name]
    exact ⟨h, .text _, rfl⟩
  | clear => exact h.clear.map fun _ => Answer.Rel.done
  | bottomUp => exact ⟨h, .items h.bottomUp, rfl⟩
  | topDown => exact ⟨h, .items h.items, rfl⟩
  | call called args => exact h.call args
  | counter c =>
    simp only [Stack.perform, h.depth]
    exact ⟨⟨h.name, h.items, rfl⟩, .counter _, rfl⟩

end Rel

variable [Item α] [Item β] {cs : List (Command α)} {ds : List (Command β)}

theorem outcomes_rel (h : s.Rel S t) (same : List.Forall₂ (Command.Rel S) cs ds) :
    List.Forall₂ (Outcome.Rel S (Answer.Rel S)) (s.outcomes cs) (t.outcomes ds) ∧ (s.after cs).Rel S (t.after ds) := by
  induction same generalizing s t with
  | nil => exact ⟨.nil, h⟩
  | cons first _ ih =>
    have step := h.perform first
    obtain ⟨later, final⟩ := ih step.state
    exact ⟨.cons step later, final⟩

/-- Two stacks of the same name, size and depth, whose items may be of different types, that are asked the
same. The items that are given to them may differ, as long as one is given on both sides or on neither, and
what is pushed is absent on both sides or on neither. Then sizes, depths and log lines are the same at every
step, and the answers differ in items only. -/
theorem outcomes_of_size_eq (name : s.name = t.name) (size : s.size = t.size) (depth : s.depth = t.depth)
    (same : List.Forall₂ (Command.Rel fun _ _ => True) cs ds) :
    List.Forall₂ (fun o p => o.state.size = p.state.size ∧ o.state.depth = p.state.depth ∧
        o.log o.state.name = p.log p.state.name ∧ o.answer.Rel (fun _ _ => True) p.answer)
      (s.outcomes cs) (t.outcomes ds) := by
  have items : List.Forall₂ (fun _ _ => True) s.items t.items :=
    List.forall₂_iff_get.mpr ⟨size, fun _ _ _ => trivial⟩
  obtain ⟨steps, _⟩ := outcomes_rel ⟨name, items, depth⟩ same
  refine steps.imp fun o p h => ⟨h.state.size_eq, h.state.depth, ?_, h.answer⟩
  unfold Outcome.log
  rw [h.state.name, h.events]

theorem outcomes_of_size_eq_texts :
    let s : Stack Count := ⟨"s", [Count.ofInt 5], ⟨Count.ofInt 0⟩⟩
    let t : Stack String := ⟨"s", [""], ⟨Count.ofInt 0⟩⟩
    let cs : List (Command Count) := [.push (Count.ofInt 7), .push (Count.ofInt 0), .offer (some (Count.ofInt 0)),
      .call "push" (some (Count.ofInt 3)), .call "pop" none, .call "peek" none, .pop, .clear]
    let ds : List (Command String) := [.push "a", .push "", .offer (some "b"),
      .call "push" (some "c"), .call "pop" (some "d"), .call "peek" none, .pop, .clear]
    s.name = t.name ∧ s.size = t.size ∧ s.depth = t.depth ∧
      List.Forall₂ (Command.Rel fun _ _ => True) cs ds ∧
      List.Forall₂ (fun o p => o.state.size = p.state.size ∧ o.state.depth = p.state.depth ∧
          o.log o.state.name = p.log p.state.name ∧ o.answer.Rel (fun _ _ => True) p.answer)
        (s.outcomes cs) (t.outcomes ds) := by
  intro s t cs ds
  have same : List.Forall₂ (Command.Rel fun _ _ => True) cs ds := by
    refine .cons (.push ⟨trivial, rfl⟩) (.cons (.push ⟨trivial, rfl⟩) (.cons (.offer (.some trivial)) ?_))
    refine .cons (.call "push" fun _ => .some ⟨trivial, rfl⟩) (.cons (.call "pop" fun pushed => ?_) ?_)
    · exact absurd pushed (by decide)
    · exact .cons (.call "peek" fun _ => .none) (.cons .pop (.cons .clear .nil))
  exact ⟨rfl, rfl, rfl, same, outcomes_of_size_eq rfl rfl rfl same⟩

end Stack

end CountedStack
