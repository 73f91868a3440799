import CountedStack.Kind
import CountedStack.Proofs.Json.Record

/-! What items read back as: nested options come back as one. -/

namespace CountedStack

namespace View

def Spells (v : View) : List Char → Prop := Json.SpellsRecord [("id", Decimal.write v.id.val)]

theorem fills (v : View) :
    record.Fills (fun seen => if "id" ∈ seen then some v.id else none) [("id", Decimal.write v.id.val)] v :=
  Json.Record.fills_of_single View.mk rfl rfl rfl Json.readsBack_int rfl

theorem readsBack : Json.ReadsBack Spells Snapshot.write Snapshot.read (fun v => v) where
  blanks := record.passesBlanks
  written _ := Json.spellsRecord_writeObject _
  opens spelled := .inr ⟨spelled.opens, (Json.spellsRecord_writeObject _).opens⟩
  reads {v _} spelled := v.fills.reads spelled
  write_norm _ := rfl

end View

namespace Kind

/-- There are no floating-point numbers in the items of the kind. -/
def floatFree : Kind → Bool
  | .float _ => false
  | .list k | .option k => k.floatFree
  | .int _ _ | .bool | .text | .view => true

def Spells : (k : Kind) → k.Value → List Char → Prop
  | .int _ _, n => (· = Decimal.write (Bounded.val n))
  | .float _, x => (· = Snapshot.write (α := FloatBits _) x)
  | .bool, b => (· = Json.writeBool b)
  | .text, s => Json.Text.SpellsString s
  | .view, v => View.Spells v
  | .list k, xs => Json.SpellsList k.Spells xs
  | .option k, x => Json.SpellsOption k.Spells x

/-- An item with every option that is written as `null` replaced by `none`. -/
def collapse : (k : Kind) → k.Value → k.Value
  | .option k, x =>
    if Snapshot.write (α := (Kind.option k).Value) x = Json.writeNull then (none : Option k.Value)
    else Option.map k.collapse x
  | .list k, xs => List.map k.collapse xs
  | .int _ _, x | .float _, x | .bool, x | .text, x | .view, x => x

/-- In an item there is a `some` whose content is written as `null`. -/
def hidesNull : (k : Kind) → k.Value → Bool
  | .option k, x => Option.any (fun y => Snapshot.write y = Json.writeNull || k.hidesNull y) x
  | .list k, xs => List.any xs k.hidesNull
  | .int _ _, _ | .float _, _ | .bool, _ | .text, _ | .view, _ => false

theorem readsBack (k : Kind) (free : k.floatFree = true) :
    Json.ReadsBack k.Spells Snapshot.write Snapshot.read k.collapse := by
  induction k with
  | int lo hi => exact Json.readsBack_int
  | float f => exact absurd free Bool.false_ne_true
  | bool => exact Json.readsBack_bool
  | text => exact Json.readsBack_string
  | view => exact View.readsBack
  | list k ih => exact Json.readsBack_list (ih free)
  | option k ih => exact Json.readsBack_option (ih free)

section Parts

variable {α : Type} {f : α → α} {changed : α → Bool}

theorem map_eq_self_iff (h : ∀ x, f x = x ↔ changed x = false) (xs : List α) :
    xs.map f = xs ↔ xs.any changed = false :=
  calc xs.map f = xs
      ↔ xs.map f = xs.map id := by rw [List.map_id]
    _ ↔ ∀ x ∈ xs, f x = x := List.map_inj_left
    _ ↔ ∀ x ∈ xs, changed x = false := forall₂_congr fun x _ => h x
    _ ↔ xs.any changed = false := by simp

theorem collapse_option_eq_self_iff (write : α → List Char) (h : ∀ x, f x = x ↔ changed x = false)
    (x : Option α) :
    (if Json.writeOption write x = Json.writeNull then none else x.map f) = x ↔
      x.any (fun y => write y = Json.writeNull || changed y) = false := by
  cases x with
  | none => exact iff_of_true rfl rfl
  | some y =>
    by_cases null : write y = Json.writeNull
    · simp [Json.writeOption, null]
    · simp [Json.writeOption, null, h y]

end Parts

theorem collapse_eq_self_iff (k : Kind) (x : k.Value) : k.collapse x = x ↔ k.hidesNull x = false := by
  induction k with
  | int lo hi => exact iff_of_true rfl rfl
  | float f => exact iff_of_true rfl rfl
  | bool => exact iff_of_true rfl rfl
  | text => exact iff_of_true rfl rfl
  | view => exact iff_of_true rfl rfl
  | list k ih => exact map_eq_self_iff ih x
  | option k ih => exact collapse_option_eq_self_iff Snapshot.write ih x

theorem lawfulBEq (k : Kind) (free : k.floatFree = true) : LawfulBEq k.Value := by
  induction k with
  | int lo hi => exact inferInstanceAs (LawfulBEq (Bounded lo hi))
  | float f => exact absurd free Bool.false_ne_true
  | bool => exact inferInstanceAs (LawfulBEq Bool)
  | text => exact inferInstanceAs (LawfulBEq String)
  | view => exact inferInstanceAs (LawfulBEq View)
  | list k ih =>
    have := ih free
    exact inferInstanceAs (LawfulBEq (List k.Value))
  | option k ih =>
    have := ih free
    exact inferInstanceAs (LawfulBEq (Option k.Value))

end Kind

end CountedStack
