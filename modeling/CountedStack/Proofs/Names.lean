import CountedStack.Proofs.Move
import Mathlib.Data.List.Nodup

namespace CountedStack

variable {α : Type}

namespace Operation

/-- The argument is the one of the operation, if it has one. -/
def Takes (op : Operation α) (arg : Option α) : Prop := ∀ x, op = .push x → arg = x

theorem ofName_name {op : Operation α} {arg : Option α} (takes : op.Takes arg) : ofName op.name arg = .ok op := by
  cases op with
  | push x =>
    obtain rfl : arg = x := takes x rfl
    rfl
  | _ => rfl

theorem ofName_eq_ok_iff {called : String} {arg : Option α} {op : Operation α} :
    ofName called arg = .ok op ↔ called = op.name ∧ op.Takes arg := by
  constructor
  · intro found
    obtain rfl := name_of_ofName found
    refine ⟨rfl, ?_⟩
    rintro x rfl
    have pushed : (.ok (push arg) : Except UnknownOperation _) = .ok (push x) := found
    exact push.inj (Except.ok.inj pushed)
  · rintro ⟨rfl, takes⟩
    exact ofName_name takes

theorem exists_takes (op : Operation α) : ∃ arg, op.Takes arg := by
  cases op with
  | push x => exact ⟨x, fun _ same => push.inj same⟩
  | _ =>
    refine ⟨none, ?_⟩
    rintro x ⟨⟩

theorem nodup_names : names.Nodup := by decide

theorem names_eq_map (x : Option α) : names = [push x, .pop, .current, .depth, .len].map name := rfl

theorem name_eq_push_iff {op : Operation α} : op.name = "push" ↔ ∃ x, op = .push x := by
  constructor
  · intro same
    have place : op.position = (push none : Operation α).position :=
      List.nodup_iff_injective_get.mp nodup_names same
    cases op with
    | push x => exact ⟨x, rfl⟩
    | _ => simp [position] at place
  · rintro ⟨x, rfl⟩
    rfl

theorem exists_ofName_iff {called : String} {arg : Option α} :
    (∃ op, ofName called arg = .ok op) ↔ called ∈ names := by
  constructor
  · rintro ⟨op, found⟩
    rw [← name_of_ofName found]
    exact names.get_mem op.position
  · intro known
    simp only [names, List.mem_cons, List.not_mem_nil, or_false] at known
    rcases known with rfl | rfl | rfl | rfl | rfl <;> simp [ofName]

section Equality

variable [BEq α]

theorem beq_eq_of_ne_push {p : Operation α} (other : p.name ≠ "push") (q : Operation α) :
    (p == q) = decide (p.name = q.name) := by
  cases p with
  | push x => exact absurd rfl other
  | _ => cases q <;> rfl

theorem beq_iff {p q : Operation α} {x y : Option α} (takes : p.Takes x) (takes' : q.Takes y) :
    (p == q) = true ↔ p.name = q.name ∧ (p.name = "push" → (x == y) = true) := by
  by_cases push : p.name = "push"
  · obtain ⟨x', rfl⟩ := name_eq_push_iff.mp push
    obtain rfl := takes x' rfl
    cases q with
    | push y' =>
      obtain rfl := takes' y' rfl
      exact ⟨fun same => ⟨rfl, fun _ => same⟩, fun same => same.2 rfl⟩
    | _ =>
      refine iff_of_false Bool.false_ne_true fun same => ?_
      obtain ⟨_, ⟨⟩⟩ := name_eq_push_iff.mp same.1.symm
  · rw [beq_eq_of_ne_push push, decide_eq_true_eq]
    exact ⟨fun same => ⟨same, fun pushed => absurd pushed push⟩, And.left⟩

end Equality

end Operation

theorem UnknownOperation.suffix_message (e : UnknownOperation) : e.name.toList <:+ e.message.toList := by
  have written : e.message.toList = "unknown stack operation: ".toList ++ e.name.toList := String.toList_append
  rw [written]
  exact List.suffix_append _ e.name.toList

namespace Operation

variable [BEq α]

/-- A name is found just if it is in the list, in which none comes twice, and it is then the name of what is
found; any other is reported as it was given. An operation is found under its own name alone, and it is found
again from its name and its argument. Two operations that are found are equal just if the names are and,
for `push`, the arguments, in the equality that the items have. -/
theorem ofName_agrees_with_name :
    (names.Nodup ∧ ∀ x : Option α, names = [push x, .pop, .current, .depth, .len].map name) ∧
    (∀ (called : String) (arg : Option α),
      ((∃ op, ofName called arg = .ok op) ↔ called ∈ names) ∧
      (∀ op, ofName called arg = .ok op → op.name = called) ∧
      (called ∉ names → ofName called arg = .error ⟨called⟩ ∧
        called.toList <:+ (UnknownOperation.mk called).message.toList)) ∧
    (∀ op : Operation α, (∀ called, (∃ arg, ofName called arg = .ok op) ↔ called = op.name) ∧
      ∀ arg, (∀ x, op = .push x → arg = x) → ofName op.name arg = .ok op) ∧
    ∀ (a b : String) (x y : Option α) (p q : Operation α), ofName a x = .ok p → ofName b y = .ok q →
      ((p == q) = true ↔ a = b ∧ (a = "push" → (x == y) = true)) := by
  refine ⟨⟨nodup_names, names_eq_map⟩, ?_, ?_, ?_⟩
  · intro called arg
    refine ⟨exists_ofName_iff, fun op found => name_of_ofName found, fun unknown => ?_⟩
    exact ⟨ofName_of_not_mem unknown arg, UnknownOperation.suffix_message ⟨called⟩⟩
  · intro op
    obtain ⟨own, takes⟩ := op.exists_takes
    refine ⟨fun called => ⟨?_, ?_⟩, fun arg takes => ofName_name takes⟩
    · rintro ⟨arg, found⟩
      exact (ofName_eq_ok_iff.mp found).1
    · rintro rfl
      exact ⟨own, ofName_name takes⟩
  · intro a b x y p q found found'
    obtain ⟨rfl, takes⟩ := ofName_eq_ok_iff.mp found
    obtain ⟨rfl, takes'⟩ := ofName_eq_ok_iff.mp found'
    exact beq_iff takes takes'

/-- The zeros are equal arguments, an argument that is not read does not matter, and capitals do. -/
theorem ofName_agrees_with_name_zeros :
    let zero : Option (FloatBits .binary64) := some ⟨0⟩
    let negative : Option (FloatBits .binary64) := some ⟨0x8000000000000000⟩
    ("Push" ∉ names ∧ ofName "Push" zero = .error ⟨"Push"⟩) ∧
    ((∀ x, (pop : Operation (FloatBits .binary64)) = .push x → zero = x) ∧ ofName "pop" zero = .ok .pop) ∧
    ofName "push" zero = .ok (.push zero) ∧ ofName "push" negative = .ok (.push negative) ∧
      (Operation.push zero == .push negative) = true := by
  intro zero negative
  have unknown : "Push" ∉ names := by decide
  have free : ∀ x, (pop : Operation (FloatBits .binary64)) = .push x → zero = x := by
    rintro x ⟨⟩
  have first : ofName "push" zero = .ok (.push zero) := ofName_name fun _ same => push.inj same
  have second : ofName "push" negative = .ok (.push negative) := ofName_name fun _ same => push.inj same
  obtain ⟨_, found, operations, equal⟩ := ofName_agrees_with_name (α := FloatBits .binary64)
  exact ⟨⟨unknown, ((found "Push" zero).2.2 unknown).1⟩, ⟨free, (operations pop).2 zero free⟩, first, second,
    (equal _ _ _ _ _ _ first second).mpr ⟨rfl, fun _ => by decide⟩⟩

end Operation

end CountedStack
