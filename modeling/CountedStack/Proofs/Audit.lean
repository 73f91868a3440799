import CountedStack.Proofs.Accounting
import Mathlib.Algebra.Ring.Int.Defs
import Mathlib.Algebra.Ring.Nat

/-!
The log of a stack is read here as text, knowing only the name of the stack: its lines add up to the change of
the number of items, and the last line of a change ends with the depth.
-/

namespace CountedStack

namespace Line

/-- What comes after the given words in a line of level TRACE of the stack called `name`. -/
def after? (name words : String) (l : Line) : Option (List Char) :=
  if l.level = .trace then l.text.toList.dropPrefix? (name ++ ": " ++ words).toList else none

def lastNumber (l : Line) : Int := Decimal.intOf (l.text.toList.reverse.takeWhile (· ≠ ' ')).reverse

end Line

namespace Log

def pushes (name : String) (log : List Line) : Nat := log.countP fun l => (l.after? name "push, depth ").isSome

def pops (name : String) (log : List Line) : Nat := log.countP fun l => (l.after? name "pop, depth ").isSome

def dropped (name : String) (log : List Line) : Nat :=
  (log.map fun l => Decimal.natOf (((l.after? name "cleared ").getD []).takeWhile Char.isDigit)).sum

def change (name : String) (log : List Line) : Int := pushes name log - pops name log - dropped name log

/-- The depth that the last line of level TRACE shows. -/
def lastDepth? (log : List Line) : Option Int :=
  (log.filter (·.level = .trace)).getLast?.map Line.lastNumber

theorem change_append (name : String) (xs ys : List Line) :
    change name (xs ++ ys) = change name xs + change name ys := by
  simp only [change, pushes, pops, dropped, List.countP_append, List.map_append, List.sum_append]
  omega

theorem lastDepth?_append (xs ys : List Line) : lastDepth? (xs ++ ys) = (lastDepth? ys).or (lastDepth? xs) := by
  simp only [lastDepth?, List.filter_append, List.getLast?_append]
  cases (ys.filter (·.level = .trace)).getLast? <;> rfl

end Log

namespace Event

def change : Event → Int
  | .pushed _ => 1
  | .popped _ => -1
  | .cleared dropped _ => -dropped
  | .pushIgnored | .popFailed | .wentNegative _ => 0

/-- The depth after an event that changes the stack. -/
def depth? : Event → Option Int
  | .pushed depth | .popped depth | .cleared _ depth => some depth.val
  | .pushIgnored | .popFailed | .wentNegative _ => none

theorem dropPrefix?_append_append (name xs ys : List Char) :
    (name ++ xs).dropPrefix? (name ++ ys) = xs.dropPrefix? ys := by
  induction name with
  | nil => rfl
  | cons c name ih => simp [List.dropPrefix?, ih]

theorem after?_line (name words : String) (e : Event) :
    (e.line name).after? name words =
      if e.level = .trace then e.text.toList.dropPrefix? words.toList else none := by
  simp only [Line.after?, line, String.toList_append, dropPrefix?_append_append]

theorem not_space_write {n : Int} : ∀ c ∈ Decimal.write n, c ≠ ' ' := by
  have digits : ∀ c ∈ Nat.toDigits 10 n.natAbs, c ≠ ' ' := by
    rintro c member rfl
    exact absurd (Nat.isDigit_of_mem_toDigits (by decide) (Nat.le_refl 10) member) (by decide)
  unfold Decimal.write
  split
  · exact List.forall_mem_cons.mpr ⟨by decide, digits⟩
  · exact digits

theorem lastNumber_of_text {l : Line} {before : List Char} {n : Int}
    (text : l.text.toList = before ++ ' ' :: Decimal.write n) : l.lastNumber = n := by
  have word : l.text.toList.reverse.takeWhile (· ≠ ' ') = (Decimal.write n).reverse := by
    have plain : ∀ c ∈ (Decimal.write n).reverse, decide (c ≠ ' ') = true := by
      intro c member
      exact decide_eq_true (not_space_write c (List.mem_reverse.mp member))
    rw [text, List.reverse_append, List.reverse_cons, List.append_assoc, List.takeWhile_append_of_pos plain]
    simp
  rw [Line.lastNumber, word, List.reverse_reverse, Decimal.intOf_write]

theorem toList_text_pushed (d : Count) :
    (text (.pushed d)).toList = "push, depth ".toList ++ Decimal.write d.val := by
  show ("push, depth " ++ Decimal.text d.val).toList = _
  rw [String.toList_append, Decimal.toList_text]

theorem toList_text_popped (d : Count) :
    (text (.popped d)).toList = "pop, depth ".toList ++ Decimal.write d.val := by
  show ("pop, depth " ++ Decimal.text d.val).toList = _
  rw [String.toList_append, Decimal.toList_text]

theorem toList_text_cleared (k : Nat) (d : Count) :
    (text (.cleared k d)).toList =
      "cleared ".toList ++ (Nat.toDigits 10 k ++ (" items, depth ".toList ++ Decimal.write d.val)) := by
  show ("cleared " ++ Decimal.text k ++ " items, depth " ++ Decimal.text d.val).toList = _
  simp only [String.toList_append, Decimal.toList_text, List.append_assoc, Decimal.write_natCast]

theorem toList_line (name : String) (e : Event) :
    (e.line name).text.toList = (name ++ ": ").toList ++ e.text.toList := String.toList_append

theorem lastDepth?_singleton (l : Line) :
    Log.lastDepth? [l] = if l.level = .trace then some l.lastNumber else none := by
  by_cases h : l.level = .trace <;> simp [Log.lastDepth?, h]

theorem lastDepth?_of_text (name : String) {e : Event} {before : List Char} {n : Int} (trace : e.level = .trace)
    (text : e.text.toList = before ++ ' ' :: Decimal.write n) : Log.lastDepth? [e.line name] = some n := by
  have ends : (e.line name).text.toList = (name ++ ": ").toList ++ before ++ ' ' :: Decimal.write n := by
    rw [toList_line, text, List.append_assoc]
  rw [lastDepth?_singleton, lastNumber_of_text ends]
  exact if_pos trace

theorem lastDepth?_line (name : String) (e : Event) : Log.lastDepth? [e.line name] = e.depth? := by
  cases e with
  | pushed d =>
    have text : (text (.pushed d)).toList = "push, depth".toList ++ ' ' :: Decimal.write d.val := toList_text_pushed d
    exact lastDepth?_of_text name rfl text
  | popped d =>
    have text : (text (.popped d)).toList = "pop, depth".toList ++ ' ' :: Decimal.write d.val := toList_text_popped d
    exact lastDepth?_of_text name rfl text
  | cleared k d =>
    have text : (text (.cleared k d)).toList =
        "cleared ".toList ++ (Nat.toDigits 10 k ++ " items, depth".toList) ++ ' ' :: Decimal.write d.val := by
      rw [toList_text_cleared, List.append_assoc, List.append_assoc]
      rfl
    exact lastDepth?_of_text name rfl text
  | _ =>
    rw [lastDepth?_singleton]
    rfl

theorem natOf_takeWhile_toDigits (k : Nat) {c : Char} (h : c.isDigit = false) (rest : List Char) :
    Decimal.natOf ((Nat.toDigits 10 k ++ c :: rest).takeWhile Char.isDigit) = k := by
  have digits : ∀ d ∈ Nat.toDigits 10 k, d.isDigit = true := fun d member =>
    Nat.isDigit_of_mem_toDigits (by decide) (Nat.le_refl 10) member
  rw [List.takeWhile_append_of_pos digits, List.takeWhile_cons_of_neg (by simp [h]), List.append_nil,
    Decimal.natOf_toDigits]

theorem after?_of_text (name : String) {e : Event} (trace : e.level = .trace) {cs : List Char}
    (text : e.text.toList = cs) (words : String) : (e.line name).after? name words = cs.dropPrefix? words.toList := by
  rw [after?_line, if_pos trace, text]

theorem after?_of_prefix (name : String) {e : Event} (trace : e.level = .trace) {words : String}
    {rest : List Char} (text : e.text.toList = words.toList ++ rest) :
    (e.line name).after? name words = some rest := by
  rw [after?_line, if_pos trace, text]
  exact List.dropPrefix?_append_of_beq rest (beq_self_eq_true words.toList)

theorem change_line (name : String) (e : Event) : Log.change name [e.line name] = e.change := by
  cases e with
  | pushed d =>
    have after := after?_of_text name rfl (toList_text_pushed d)
    have push := after?_of_prefix name rfl (toList_text_pushed d)
    have pop : _ = none := (after "pop, depth ").trans rfl
    have cleared : _ = none := (after "cleared ").trans rfl
    simp [Log.change, Log.pushes, Log.pops, Log.dropped, push, pop, cleared, change, Decimal.natOf]
  | popped d =>
    have after := after?_of_text name rfl (toList_text_popped d)
    have push : _ = none := (after "push, depth ").trans rfl
    have pop := after?_of_prefix name rfl (toList_text_popped d)
    have cleared : _ = none := (after "cleared ").trans rfl
    simp [Log.change, Log.pushes, Log.pops, Log.dropped, push, pop, cleared, change, Decimal.natOf]
  | cleared k d =>
    have after := after?_of_text name rfl (toList_text_cleared k d)
    have push : _ = none := (after "push, depth ").trans rfl
    have pop : _ = none := (after "pop, depth ").trans rfl
    have cleared := after?_of_prefix name rfl (toList_text_cleared k d)
    have number :=
      natOf_takeWhile_toDigits k (c := ' ') (by decide) ("items, depth ".toList ++ Decimal.write d.val)
    have dropped : Log.dropped name [line name (.cleared k d)] = k := by
      simp only [Log.dropped, List.map_singleton, List.sum_singleton, cleared, Option.getD_some]
      exact number
    simp [Log.change, Log.pushes, Log.pops, push, pop, dropped, change]
  | _ => simp [Log.change, Log.pushes, Log.pops, Log.dropped, after?_line, level, change, Decimal.natOf]

theorem change_map_line (name : String) (es : List Event) :
    Log.change name (es.map (line name)) = (es.map change).sum := by
  induction es with
  | nil => rfl
  | cons e es ih =>
    have split := Log.change_append name [e.line name] (es.map (line name))
    rw [change_line, ih] at split
    exact split

theorem lastDepth?_map_line (name : String) (es : List Event) :
    Log.lastDepth? (es.map (line name)) = (es.filterMap depth?).getLast? := by
  induction es with
  | nil => rfl
  | cons e es ih =>
    have split := Log.lastDepth?_append [e.line name] (es.map (line name))
    rw [lastDepth?_line, ih] at split
    refine split.trans ?_
    cases shown : e.depth? <;> simp [shown, List.getLast?_cons]

end Event

namespace Stack

variable {α : Type} (s : Stack α)

/-- A move but an adjustment logs by how much it changes the number of items and, if it changes anything,
the depth that it leads to. -/
theorem logged_apply {m : Move α} (unadjusted : m.adjusts = false) :
    ((s.apply m).size : Int) - s.size = ((s.logged m).map Event.change).sum ∧
      (s.apply m).depth.value.val = ((s.logged m).filterMap Event.depth?).getLast?.getD s.depth.value.val := by
  cases m with
  | place x =>
    refine ⟨?_, rfl⟩
    simp only [apply, size, List.length_cons, logged, List.map_singleton, List.sum_singleton, Event.change]
    omega
  | take =>
    cases items : s.items with
    | nil => simp [apply, logged, isEmpty, items, Event.change, Event.depth?]
    | cons x rest =>
      have logged : s.logged .take = popEvents s.depth.decrement.value := by simp [logged, isEmpty, items]
      have change : ((popEvents s.depth.decrement.value).map Event.change).sum = -1 := by
        unfold popEvents
        split <;> rfl
      have last : ((popEvents s.depth.decrement.value).filterMap Event.depth?).getLast? =
          some s.depth.decrement.value.val := by
        unfold popEvents
        split <;> rfl
      rw [logged, change, last]
      simp only [apply, size, items, List.length_cons, Option.getD_some, and_true]
      omega
  | clear => simp [apply, size, logged, Event.change, Event.depth?]
  | adjust c => cases unadjusted
  | _ => simp [apply, logged]

variable [Item α]

theorem log_perform (name : String) {c : Command α} (unadjusted : c.adjusts = false) :
    let o := s.perform c
    (o.state.size : Int) - s.size = Log.change name (o.log name) ∧
      o.state.depth.value.val = (Log.lastDepth? (o.log name)).getD s.depth.value.val := by
  intro o
  rw [c.classified.adjusts] at unadjusted
  rw [Outcome.log, Event.change_map_line, Event.lastDepth?_map_line, state_perform]
  rcases s.events_perform c with logged | ⟨rest, ignored⟩
  · rw [logged]
    exact s.logged_apply unadjusted
  · rw [ignored, rest]
    simp [apply, Event.change, Event.depth?]

def log (cs : List (Command α)) : List Line := (s.outcomes cs).flatMap fun o => o.log s.name

theorem log_eq_map (cs : List (Command α)) :
    s.log cs = ((s.outcomes cs).flatMap (·.events)).map (Event.line s.name) := List.map_flatMap.symm

theorem log_concat (cs : List (Command α)) (c : Command α) :
    s.log (cs ++ [c]) = s.log cs ++ ((s.after cs).perform c).log s.name := by
  simp only [log, outcomes, trace_append, List.flatMap_append, trace, List.flatMap_singleton]

variable {s} {cs : List (Command α)}

theorem size_and_depth_eq (unadjusted : ∀ c ∈ cs, c.adjusts = false) :
    ((s.after cs).size : Int) = s.size + Log.change s.name (s.log cs) ∧
      (s.after cs).depth.value.val = (Log.lastDepth? (s.log cs)).getD s.depth.value.val := by
  induction cs using List.reverseRecOn with
  | nil => exact ⟨(Int.add_zero _).symm, rfl⟩
  | append_singleton cs c ih =>
    obtain ⟨earlier, latest⟩ := List.forall_mem_append.mp unadjusted
    obtain ⟨size, depth⟩ := ih earlier
    obtain ⟨change, last⟩ := (s.after cs).log_perform s.name (latest c List.mem_cons_self)
    rw [after_concat, log_concat]
    constructor
    · rw [Log.change_append]
      omega
    · rw [last, depth, Log.lastDepth?_append]
      cases Log.lastDepth? (((s.after cs).perform c).log s.name) <;> rfl

/-- What the log of a run tells: the pushes, pops and dropped items in it are the change of the number of
items, and its last line of level TRACE shows the depth. So two runs of one stack that log the same end with
the same number of items and the same depth. -/
theorem size_and_depth_of_log (s : Stack α) (cs : List (Command α)) (unadjusted : ∀ c ∈ cs, c.adjusts = false) :
    ((s.after cs).size : Int) - s.size =
        Log.pushes s.name (s.log cs) - Log.pops s.name (s.log cs) - Log.dropped s.name (s.log cs) ∧
      (s.after cs).depth.value.val = (Log.lastDepth? (s.log cs)).getD s.depth.value.val ∧
      ∀ ds : List (Command α), (∀ d ∈ ds, d.adjusts = false) → s.log ds = s.log cs →
        (s.after ds).size = (s.after cs).size ∧ (s.after ds).depth = (s.after cs).depth := by
  obtain ⟨size, depth⟩ := size_and_depth_eq (s := s) unadjusted
  refine ⟨?_, depth, ?_⟩
  · rw [Log.change] at size
    omega
  · intro ds others same
    obtain ⟨size', depth'⟩ := size_and_depth_eq (s := s) others
    rw [same, ← size] at size'
    rw [same, ← depth] at depth'
    exact ⟨Int.ofNat.inj size', congrArg Depth.mk (Bounded.ext depth')⟩

/-- Next to the largest count, where the depth stops and the number of items does not. -/
theorem size_and_depth_of_log_near_top :
    let five := Count.ofInt 5
    let s : Stack Count := ⟨"pop, depth 3", [five], ⟨Count.ofInt (2 ^ 63 - 2)⟩⟩
    let cs : List (Command Count) := [.push five, .offer (some (Count.ofInt 0)), .pop]
    let ds : List (Command Count) :=
      [.call "push" (some (Count.ofInt 7)), .top, .call "len" none, .push five, .call "peek" none, .call "pop" none]
    let lines : List Line := [⟨.trace, "pop, depth 3: push, depth 9223372036854775807"⟩,
      ⟨.trace, "pop, depth 3: push, depth 9223372036854775807"⟩,
      ⟨.trace, "pop, depth 3: pop, depth 9223372036854775806"⟩]
    (∀ c ∈ cs, c.adjusts = false) ∧ (∀ d ∈ ds, d.adjusts = false) ∧ s.log cs = lines ∧ s.log ds = lines ∧
      (2 : Int) - 1 = Log.pushes s.name lines - Log.pops s.name lines - Log.dropped s.name lines ∧
      Log.lastDepth? lines = some (2 ^ 63 - 2) ∧
      (s.after ds).size = 2 ∧ (s.after ds).depth.value.val = 2 ^ 63 - 2 := by
  intro five s cs ds lines
  have first : ∀ c ∈ cs, c.adjusts = false := by decide
  have second : ∀ d ∈ ds, d.adjusts = false := by decide
  have events : (s.outcomes ds).flatMap (·.events) = (s.outcomes cs).flatMap (·.events) := by decide
  have same : s.log ds = s.log cs := by rw [log_eq_map, log_eq_map, events]
  have shown : s.log cs = lines := by decide +kernel
  obtain ⟨size, depth, ends⟩ := size_and_depth_of_log s cs first
  obtain ⟨size', depth'⟩ := ends ds second same
  have two : (s.after cs).size = 2 := by decide
  rw [shown] at size depth same
  rw [two] at size size'
  have last : Log.lastDepth? lines = some (2 ^ 63 - 2) := by decide +kernel
  rw [last] at depth
  exact ⟨first, second, shown, same, size, last, size', depth' ▸ depth⟩

end Stack

end CountedStack
