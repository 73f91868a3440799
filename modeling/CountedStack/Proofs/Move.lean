import CountedStack.Command

/-! A command reaches a stack directly, as an offer or by name. What it does there is one of a few moves. -/

namespace CountedStack

variable {α : Type}

inductive Move (α : Type) where
  | place (x : α)
  | take
  | look
  | clear
  /-- Changes the counter alone. -/
  | adjust (c : Depth.Command)
  /-- Changes nothing and shows no item. -/
  | rest

namespace Move

def ofPush [Absence α] (x : α) : Move α := if isAbsent x then .rest else .place x

@[simp] def placed? : Move α → Option α
  | .place x => some x
  | _ => none

@[simp] def takes : Move α → Bool
  | .take => true
  | _ => false

theorem eq_take {m : Move α} (h : m.takes = true) : m = .take := by
  cases m <;> first | rfl | cases h

@[simp] def looks : Move α → Bool
  | .look => true
  | _ => false

@[simp] def clears : Move α → Bool
  | .clear => true
  | _ => false

@[simp] def adjusts : Move α → Bool
  | .adjust _ => true
  | _ => false

end Move

def Depth.Command.adjusts : Depth.Command → Bool
  | .get | .json | .describe | .equals _ => false
  | .increment | .decrement | .subtract _ | .assign _ | .reset | .restore _ => true

def Operation.move [Absence α] : Operation α → Move α
  | .push (some x) => .ofPush x
  | .push none => .rest
  | .pop => .take
  | .current => .look
  | .depth | .len => .rest

namespace Command

def move [Absence α] : Command α → Move α
  | .push x => .ofPush x
  | .offer (some x) => .place x
  | .offer none => .rest
  | .pop => .take
  | .top => .look
  | .clear => .clear
  | .call called arg =>
    match Operation.ofName called arg with
    | .ok op => op.move
    | .error _ => .rest
  | .counter c => if c.adjusts then .adjust c else .rest
  | .size | .isEmpty | .depth | .name | .bottomUp | .topDown | .json | .describe => .rest

def isTop : Command α → Bool
  | .top => true
  | .call called _ => called = "current"
  | _ => false

def isClear : Command α → Bool
  | .clear => true
  | _ => false

def adjusts : Command α → Bool
  | .counter c => c.adjusts
  | _ => false

def argument? : Command α → Option α
  | .push x => some x
  | .offer x => x
  | .call called arg => if called = "push" then arg else none
  | _ => none

end Command

namespace Operation

theorem ofName_cases (name : String) (arg : Option α) :
    (name = "push" ∧ ofName name arg = .ok (.push arg)) ∨
    (name = "pop" ∧ ofName name arg = .ok .pop) ∨
    (name = "current" ∧ ofName name arg = .ok .current) ∨
    (name = "depth" ∧ ofName name arg = .ok .depth) ∨
    (name = "len" ∧ ofName name arg = .ok .len) ∨
    (name ∉ names ∧ ofName name arg = .error ⟨name⟩) := by
  unfold ofName names
  by_cases h₁ : name = "push"
  · simp [h₁]
  by_cases h₂ : name = "pop"
  · simp [h₂]
  by_cases h₃ : name = "current"
  · simp [h₃]
  by_cases h₄ : name = "depth"
  · simp [h₄]
  by_cases h₅ : name = "len"
  · simp [h₅]
  simp [h₁, h₂, h₃, h₄, h₅]

theorem ofName_of_not_mem {called : String} (unknown : called ∉ names) (arg : Option α) :
    ofName called arg = .error ⟨called⟩ := by
  simp_all [names, ofName]

theorem name_of_ofName {called : String} {arg : Option α} {op : Operation α} (h : ofName called arg = .ok op) :
    op.name = called := by
  rcases ofName_cases called arg with
    ⟨rfl, found⟩ | ⟨rfl, found⟩ | ⟨rfl, found⟩ | ⟨rfl, found⟩ | ⟨rfl, found⟩ | ⟨_, found⟩ <;>
    rw [found] at h <;> cases h <;> rfl

end Operation

/-- The tests on a command and on its move have the same result. -/
structure Command.Classified [Absence α] (c : Command α) : Prop where
  isPop : c.isPop = c.move.takes
  isTop : c.isTop = c.move.looks
  isClear : c.isClear = c.move.clears
  adjusts : c.adjusts = c.move.adjusts
  placed : ∀ x, c.move.placed? = some x → c.isPush = true ∧ c.argument? = some x
  isPush : c.isPush = true → c.move.placed?.isSome ∨ c.move = .rest

theorem Command.classified [Absence α] (c : Command α) : c.Classified := by
  cases c with
  | push x =>
    by_cases h : isAbsent x = true <;> constructor <;>
      simp [move, Move.ofPush, h, isPop, isTop, isClear, adjusts, isPush, argument?]
  | offer x =>
    cases x <;> constructor <;> simp [move, isPop, isTop, isClear, adjusts, isPush, argument?]
  | call called arg =>
    rcases Operation.ofName_cases called arg with
      ⟨rfl, h⟩ | ⟨rfl, h⟩ | ⟨rfl, h⟩ | ⟨rfl, h⟩ | ⟨rfl, h⟩ | ⟨unknown, h⟩
    · rcases arg with _ | x
      · constructor <;>
          simp [move, h, Operation.move, isPop, isTop, isClear, adjusts, isPush, argument?]
      · by_cases absent : isAbsent x = true <;> constructor <;>
          simp [move, h, Operation.move, Move.ofPush, absent, isPop, isTop, isClear, adjusts, isPush, argument?]
    all_goals
      constructor <;>
        simp_all [move, Operation.move, Operation.names, isPop, isTop, isClear, adjusts, isPush, argument?]
  | counter c =>
    by_cases h : c.adjusts = true <;> constructor <;>
      simp [move, h, isPop, isTop, isClear, adjusts, isPush, argument?]
  | _ => constructor <;> simp [move, isPop, isTop, isClear, adjusts, isPush, argument?]

namespace Stack

def apply (s : Stack α) : Move α → Stack α
  | .place x => { s with items := x :: s.items, depth := s.depth.increment }
  | .take =>
    match s.items with
    | [] => s
    | _ :: rest => { s with items := rest, depth := s.depth.decrement }
  | .clear => { s with items := [], depth := s.depth.subtract s.size }
  | .adjust c => { s with depth := (s.depth.perform c).state }
  | .look | .rest => s

def answered (s : Stack α) : Move α → Option α
  | .place x => some x
  | .take | .look => s.top?
  | .clear | .adjust _ | .rest => none

def logged (s : Stack α) : Move α → List Event
  | .place _ => [.pushed s.depth.increment.value]
  | .take => if s.isEmpty then [.popFailed] else popEvents s.depth.decrement.value
  | .clear => [.cleared s.size (s.depth.subtract s.size).value]
  | .look | .adjust _ | .rest => []

variable [Item α] (s : Stack α)

theorem push_apply (x : α) : (s.push x).state = s.apply (.ofPush x) ∧
    (s.push x).answer = s.answered (.ofPush x) := by
  unfold push Move.ofPush
  split <;> exact ⟨rfl, rfl⟩

omit [Item α] in
theorem pop_apply : s.pop.state = s.apply .take ∧ s.pop.answer = s.answered .take := by
  unfold pop apply answered top?
  cases s.items <;> exact ⟨rfl, rfl⟩

theorem counter_rest {d : Depth} {c : Depth.Command} (h : c.adjusts = false) :
    (d.perform c).state = d := by
  cases c <;> first | rfl | cases h

omit [Item α] in
theorem item?_reply (x : Option α) : (Answer.reply (.ok (.ofOption x))).item? = x := by
  cases x <;> rfl

theorem run_apply (op : Operation α) : (op.run s).state = s.apply op.move ∧
    (Answer.reply (.ok (op.run s).answer)).item? = s.answered op.move := by
  rcases op with ⟨_ | x⟩ | _ | _ | _ | _
  · exact ⟨rfl, rfl⟩
  · obtain ⟨state, answer⟩ := s.push_apply x
    exact ⟨state, (item?_reply _).trans answer⟩
  · obtain ⟨state, answer⟩ := s.pop_apply
    exact ⟨state, (item?_reply _).trans answer⟩
  · exact ⟨rfl, item?_reply _⟩
  · exact ⟨rfl, rfl⟩
  · exact ⟨rfl, rfl⟩

theorem call_apply (called : String) (arg : Option α) :
    (s.perform (.call called arg)).state = s.apply (Command.call called arg).move ∧
    (s.perform (.call called arg)).answer.item? = s.answered (Command.call called arg).move := by
  simp only [perform, Operation.call, Command.move]
  cases Operation.ofName called arg with
  | ok op => exact s.run_apply op
  | error e => exact ⟨rfl, rfl⟩

theorem state_perform (c : Command α) : (s.perform c).state = s.apply c.move := by
  cases c with
  | push x => exact (s.push_apply x).1
  | offer x => cases x <;> rfl
  | pop => exact s.pop_apply.1
  | call called arg => exact (s.call_apply called arg).1
  | counter c =>
    cases h : c.adjusts with
    | true => simp only [perform, Command.move, h, apply, if_true]
    | false => simp only [perform, Command.move, h, apply, counter_rest h, Bool.false_eq_true, if_false]
  | _ => rfl

theorem item?_perform (c : Command α) : (s.perform c).answer.item? = s.answered c.move := by
  cases c with
  | push x => exact (s.push_apply x).2
  | offer x => cases x <;> rfl
  | pop => exact s.pop_apply.2
  | call called arg => exact (s.call_apply called arg).2
  | counter c =>
    simp only [Command.move]
    split <;> cases c <;> rfl
  | _ => rfl

theorem push_events (x : α) : (s.push x).events = s.logged (.ofPush x) ∨
    Move.ofPush x = .rest ∧ (s.push x).events = [.pushIgnored] := by
  unfold push Move.ofPush
  split
  · exact .inr ⟨rfl, rfl⟩
  · exact .inl rfl

omit [Item α] in
theorem pop_events : s.pop.events = s.logged .take := by
  unfold pop logged isEmpty
  cases s.items <;> rfl

theorem run_events (op : Operation α) : (op.run s).events = s.logged op.move ∨
    op.move = .rest ∧ (op.run s).events = [.pushIgnored] := by
  rcases op with ⟨_ | x⟩ | _ | _ | _ | _
  · exact .inl rfl
  · exact s.push_events x
  · exact .inl s.pop_events
  all_goals exact .inl rfl

/-- A command logs what its move logs. A push that is ignored changes nothing, but it is logged. -/
theorem events_perform (c : Command α) : (s.perform c).events = s.logged c.move ∨
    c.move = .rest ∧ (s.perform c).events = [.pushIgnored] := by
  cases c with
  | push x => exact s.push_events x
  | offer x =>
    cases x with
    | some x => exact .inl rfl
    | none => exact .inr ⟨rfl, rfl⟩
  | pop => exact .inl s.pop_events
  | call called arg =>
    simp only [perform, Operation.call, Command.move]
    cases Operation.ofName called arg with
    | ok op => exact s.run_events op
    | error e => exact .inl rfl
  | counter c =>
    simp only [perform, Command.move]
    split <;> exact .inl rfl
  | _ => exact .inl rfl

end Stack

end CountedStack
