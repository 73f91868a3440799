import CountedStack.Kind
import CountedStack.Session
import CountedStack.Proofs.Parametricity

/-!
Equality of items is not identity: the two zeros of a floating-point format are equal, and what is not a number
equals nothing. But items that are equal are absent together, so that equal stacks cannot be told apart.
-/

namespace CountedStack

theorem FloatBits.beq_iff {f : FloatFormat} (x y : FloatBits f) :
    x == y ↔ x.isNaN = false ∧ y.isNaN = false ∧ (x.bits = y.bits ∨ x.isZero ∧ y.isZero) := by
  show (!x.isNaN && !y.isNaN && (x.bits == y.bits || x.isZero && y.isZero)) = true ↔ _
  simp only [Bool.and_eq_true, Bool.or_eq_true, Bool.not_eq_true', beq_iff_eq, and_assoc]

theorem FloatBits.isZero_congr {f : FloatFormat} {x y : FloatBits f} (same : x.bits = y.bits) :
    x.isZero = y.isZero := by
  unfold isZero magnitude
  rw [same]

instance {f : FloatFormat} : PartialEquivBEq (FloatBits f) where
  symm {x y} h := by
    obtain ⟨left, right, same⟩ := (x.beq_iff y).mp h
    exact (y.beq_iff x).mpr ⟨right, left, same.imp Eq.symm And.symm⟩
  trans {x y z} h h' := by
    obtain ⟨left, _, same⟩ := (x.beq_iff y).mp h
    obtain ⟨_, right, same'⟩ := (y.beq_iff z).mp h'
    refine (x.beq_iff z).mpr ⟨left, right, ?_⟩
    rcases same with same | ⟨zero, zero'⟩ <;> rcases same' with same' | ⟨zero'', zero'''⟩
    · exact .inl (same.trans same')
    · exact .inr ⟨(FloatBits.isZero_congr same).trans zero'', zero'''⟩
    · exact .inr ⟨zero, (FloatBits.isZero_congr same').symm.trans zero'⟩
    · exact .inr ⟨zero, zero'''⟩

theorem FloatBits.isAbsent_congr {f : FloatFormat} {x y : FloatBits f} (same : x == y) :
    isAbsent x = isAbsent y := by
  obtain ⟨left, right, same⟩ := (x.beq_iff y).mp same
  show (x.isZero || x.isNaN) = (y.isZero || y.isNaN)
  rw [left, right]
  rcases same with same | ⟨zero, zero'⟩
  · rw [isZero_congr same]
  · rw [zero, zero']

theorem FloatBits.beq_self_iff {f : FloatFormat} (x : FloatBits f) : x == x ↔ x.isNaN = false := by
  rw [x.beq_iff x]
  exact ⟨And.left, fun number => ⟨number, number, .inl rfl⟩⟩

section Parts

variable {α : Type} [BEq α]

theorem option_beq_iff (x y : Option α) : x == y ↔ Option.Rel (fun x y => x == y) x y := by
  cases x <;> cases y <;> simp

theorem list_beq_iff (xs ys : List α) :
    xs == ys ↔ List.Forall₂ (fun x y => x == y) xs ys := by
  induction xs generalizing ys with
  | nil => cases ys <;> simp
  | cons x xs ih => cases ys <;> simp [ih]

theorem option_isAbsent_congr {x y : Option α} (same : x == y) : isAbsent x = isAbsent y := by
  cases (option_beq_iff x y).mp same <;> rfl

theorem list_isAbsent_congr {xs ys : List α} (same : xs == ys) : isAbsent xs = isAbsent ys := by
  cases (list_beq_iff xs ys).mp same <;> rfl

theorem list_beq_self_iff (xs : List α) : xs == xs ↔ ∀ x ∈ xs, x == x := by
  rw [list_beq_iff, List.forall₂_same]

section Differing

variable {differs : α → Bool} (h : ∀ x, x == x ↔ differs x = false)

include h

theorem option_beq_self_iff_any (x : Option α) : x == x ↔ x.any differs = false := by
  cases x with
  | none => exact iff_of_true rfl rfl
  | some x => exact h x

theorem list_beq_self_iff_any (xs : List α) : xs == xs ↔ xs.any differs = false :=
  calc xs == xs
      ↔ ∀ x ∈ xs, x == x := list_beq_self_iff xs
    _ ↔ ∀ x ∈ xs, differs x = false := forall₂_congr fun x _ => h x
    _ ↔ xs.any differs = false := by simp

end Differing

variable [PartialEquivBEq α]

instance partialEquivBEq_option : PartialEquivBEq (Option α) where
  symm {x y} h := by
    cases x <;> cases y <;> simp_all [BEq.symm]
  trans {x y z} h h' := by
    cases x <;> cases y <;> cases z <;> simp_all
    exact BEq.trans h h'

instance partialEquivBEq_list : PartialEquivBEq (List α) where
  symm {xs ys} h := by
    rw [list_beq_iff] at h ⊢
    exact h.flip.imp fun _ _ => BEq.symm
  trans {xs ys zs} h h' := by
    rw [list_beq_iff] at h h' ⊢
    induction h generalizing zs with
    | nil => exact h'
    | cons head _ ih =>
      cases h' with
      | cons head' rest' => exact .cons (BEq.trans head head') (ih rest')

end Parts

namespace Kind

/-- In an item there is something that is not a number. -/
def hasNaN : (k : Kind) → k.Value → Bool
  | .float _, x => FloatBits.isNaN x
  | .list k, xs => List.any xs k.hasNaN
  | .option k, x => Option.any k.hasNaN x
  | .int _ _, _ | .bool, _ | .text, _ | .view, _ => false

theorem partialEquivBEq (k : Kind) : PartialEquivBEq k.Value := by
  induction k with
  | int lo hi => exact inferInstanceAs (PartialEquivBEq (Bounded lo hi))
  | float f => exact inferInstanceAs (PartialEquivBEq (FloatBits f))
  | bool => exact inferInstanceAs (PartialEquivBEq Bool)
  | text => exact inferInstanceAs (PartialEquivBEq String)
  | view => exact inferInstanceAs (PartialEquivBEq View)
  | list k ih => exact inferInstanceAs (PartialEquivBEq (List k.Value))
  | option k ih => exact inferInstanceAs (PartialEquivBEq (Option k.Value))

theorem isAbsent_congr (k : Kind) {x y : k.Value} (same : x == y) : isAbsent x = isAbsent y := by
  cases k with
  | int lo hi =>
    have eq : x = y := eq_of_beq (α := Bounded lo hi) same
    rw [eq]
  | float f => exact FloatBits.isAbsent_congr same
  | bool => exact congrArg not (eq_of_beq (α := Bool) same)
  | text => exact congrArg String.isEmpty (eq_of_beq (α := String) same)
  | view => rfl
  | list k => exact list_isAbsent_congr same
  | option k => exact option_isAbsent_congr same

theorem beq_self_iff (k : Kind) (x : k.Value) : x == x ↔ k.hasNaN x = false := by
  induction k with
  | int lo hi => exact iff_of_true (beq_self_eq_true (α := Bounded lo hi) x) rfl
  | float f => exact FloatBits.beq_self_iff x
  | bool => exact iff_of_true (beq_self_eq_true (α := Bool) x) rfl
  | text => exact iff_of_true (beq_self_eq_true (α := String) x) rfl
  | view => exact iff_of_true (beq_self_eq_true (α := View) x) rfl
  | list k ih => exact list_beq_self_iff_any ih x
  | option k ih => exact option_beq_self_iff_any ih x

end Kind

namespace Stack

variable {α : Type} [BEq α] {s t u : Stack α}

theorem beq_iff : s == t ↔ s.Rel (fun x y => x == y) t := by
  show (decide (s.name = t.name) && s.items == t.items && decide (s.depth = t.depth)) = true ↔ _
  rw [Bool.and_eq_true, Bool.and_eq_true, decide_eq_true_iff, decide_eq_true_iff, list_beq_iff]
  exact ⟨fun ⟨⟨name, items⟩, depth⟩ => ⟨name, items, depth⟩, fun h => ⟨⟨h.name, h.items⟩, h.depth⟩⟩

theorem beq_self_iff (s : Stack α) : s == s ↔ ∀ x ∈ s.items, x == x := by
  rw [← list_beq_self_iff, list_beq_iff, beq_iff]
  exact ⟨fun h => h.items, fun items => ⟨rfl, items, rfl⟩⟩

instance [PartialEquivBEq α] : PartialEquivBEq (Stack α) where
  symm h := by
    have same := beq_iff.mp h
    exact beq_iff.mpr ⟨same.name.symm, same.items.flip.imp fun _ _ => BEq.symm, same.depth.symm⟩
  trans {s t u} h h' := by
    have same := beq_iff.mp h
    have same' := beq_iff.mp h'
    have items := (list_beq_iff _ _).mpr same.items
    refine beq_iff.mpr ⟨same.name.trans same'.name, ?_, same.depth.trans same'.depth⟩
    exact (list_beq_iff _ _).mp (BEq.trans items ((list_beq_iff _ _).mpr same'.items))

end Stack

theorem Session.equals_copy {α : Type} [Item α] (s : Session α) :
    ((s.perform .copy).state.perform (.equals s.current)).answer = .flag (s.active == s.active) := by
  have original : (s.add s.active).slots[s.current]? = some s.active := by
    simp [add, active, List.getElem?_append_left s.current_lt]
  have copy : (s.add s.active).active = s.active := by simp [add, active]
  simp only [perform, make, original, copy]

abbrev Command.Same {α : Type} [BEq α] : Command α → Command α → Prop :=
  Command.Alike (fun x y => x == y) fun x y => x == y

instance {α : Type} [BEq α] : BEq (Answer α) where
  beq
    | .done, .done => true
    | .item x, .item y => x == y
    | .count m, .count n => m == n
    | .flag a, .flag b => a == b
    | .text a, .text b => a == b
    | .items xs, .items ys => xs == ys
    | .reply (.ok r), .reply (.ok q) => r == q
    | .reply (.error e), .reply (.error e') => e == e'
    | .counter a, .counter b => a == b
    | _, _ => false

theorem Answer.Rel.beq {α : Type} [BEq α] {a b : Answer α} (h : a.Rel (fun x y => x == y) b) : a == b := by
  cases h with
  | done => rfl
  | item items => exact (option_beq_iff _ _).mpr items
  | count n => exact beq_self_eq_true n
  | flag b => exact beq_self_eq_true b
  | text t => exact beq_self_eq_true t
  | items items => exact (list_beq_iff _ _).mpr items
  | reply replies =>
    cases replies with
    | item items => exact items
    | int n => exact beq_self_eq_true n
    | nil => rfl
  | unknown e => exact beq_self_eq_true e
  | counter a => exact beq_self_eq_true a

namespace Stack

/-- Stacks of the same name and depth whose items are equal one by one are asked the same of equal items.
Items that are equal are absent together, whatever their kind; the answers are equal, sizes, depths and log
lines are the same at every step, and the stacks are equal again at the end. Equality of stacks is symmetric
and transitive, and a stack is equal to its copy just if nothing in its items is not a number. -/
theorem outcomes_of_beq (k : Kind) :
    (∀ x y : k.Value, x == y → isPresent x = isPresent y) ∧
    (∀ (s t : Stack k.Value) (cs ds : List (Command k.Value)), s == t → List.Forall₂ Command.Same cs ds →
      List.Forall₂ (fun o p => o.answer == p.answer ∧ o.state.size = p.state.size ∧
          o.state.depth = p.state.depth ∧ o.log s.name = p.log t.name) (s.outcomes cs) (t.outcomes ds) ∧
        s.after cs == t.after ds) ∧
    (∀ s t : Stack k.Value, s == t → t == s) ∧
    (∀ s t u : Stack k.Value, s == t → t == u → s == u) ∧
    ∀ session : Session k.Value,
      ((session.perform .copy).state.perform (.equals session.current)).answer = .flag true ↔
        ∀ x ∈ session.active.items, k.hasNaN x = false := by
  have := k.partialEquivBEq
  have present (x y : k.Value) (same : x == y) : isPresent x = isPresent y := congrArg not (k.isAbsent_congr same)
  refine ⟨present, ?_, fun _ _ => BEq.symm, fun _ _ _ => BEq.trans, ?_⟩
  · intro s t cs ds equal same
    have start := beq_iff.mp equal
    have related : List.Forall₂ (Command.Rel fun x y => x == y) cs ds :=
      same.imp fun _ _ h => h.imp fun items => ⟨items, k.isAbsent_congr items⟩
    obtain ⟨steps, final⟩ := outcomes_rel start related
    refine ⟨steps.imp fun o p h => ⟨h.answer.beq, h.state.size_eq, h.state.depth, ?_⟩, beq_iff.mpr final⟩
    unfold Outcome.log
    rw [start.name, h.events]
  · intro session
    calc ((session.perform .copy).state.perform (.equals session.current)).answer = .flag true
        ↔ session.active == session.active := by simp [session.equals_copy]
      _ ↔ ∀ x ∈ session.active.items, x == x := session.active.beq_self_iff
      _ ↔ ∀ x ∈ session.active.items, k.hasNaN x = false := forall₂_congr fun x _ => k.beq_self_iff x

theorem outcomes_of_beq_zeros :
    let zero : Option (FloatBits .binary64) := some ⟨0⟩
    let negative : Option (FloatBits .binary64) := some ⟨0x8000000000000000⟩
    let k : Kind := .list (.option (.float .binary64))
    let x : k.Value := [zero, negative, none]
    let y : k.Value := [negative, zero, none]
    let s : Stack k.Value := ⟨"s", [x], ⟨Count.ofInt 3⟩⟩
    let t : Stack k.Value := ⟨"s", [y], ⟨Count.ofInt 3⟩⟩
    let cs : List (Command k.Value) := [.pop, .push x, .offer none, .call "push" (some y), .topDown]
    let ds : List (Command k.Value) := [.pop, .push y, .offer none, .call "push" (some x), .topDown]
    let session : Session k.Value := ⟨[s], 0, Nat.zero_lt_one⟩
    ((x == y) = true ∧ isPresent x = isPresent y) ∧ (s == t ∧ t == s ∧ s == s) ∧
      List.Forall₂ Command.Same cs ds ∧
      List.Forall₂ (fun o p => o.answer == p.answer ∧ o.state.size = p.state.size ∧
          o.state.depth = p.state.depth ∧ o.log s.name = p.log t.name) (s.outcomes cs) (t.outcomes ds) ∧
      s.after cs == t.after ds ∧
      ((session.perform .copy).state.perform (.equals session.current)).answer = .flag true := by
  intro zero negative k x y s t cs ds session
  have alike : x == y := by decide
  have equal : s == t := by decide
  have same : List.Forall₂ Command.Same cs ds := by
    refine .cons .pop (.cons (.push alike) (.cons (.offer .none) (.cons (.call "push" fun _ => ?_) ?_)))
    · exact .some (by decide)
    · exact .cons .topDown .nil
  obtain ⟨present, runs, symmetric, transitive, copies⟩ := outcomes_of_beq k
  obtain ⟨steps, final⟩ := runs s t cs ds equal same
  have back := symmetric s t equal
  have own := transitive s t s equal back
  exact ⟨⟨alike, present x y alike⟩, ⟨equal, back, own⟩, same, steps, final, (copies session).mpr (by decide)⟩

end Stack

end CountedStack
