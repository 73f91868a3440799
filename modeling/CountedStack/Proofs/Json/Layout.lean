import CountedStack.Proofs.Json.Number
import Mathlib.Data.List.DropRight
import Mathlib.Data.List.Forall2

/-! How values stand between brackets, whatever they are: with commas between them and blanks around them. -/

namespace CountedStack.Json

def Blank (blanks : List Char) : Prop := ∀ c ∈ blanks, c ∈ [' ', '\n', '\t', '\r']

/-- What stands behind a value, up to the closing bracket: the values that follow, each after its comma. -/
inductive Continues : List (List Char) → List Char → Prop where
  | nil {blanks : List Char} : Blank blanks → Continues [] blanks
  | cons {before behind value text : List Char} {values : List (List Char)} : Blank before → Blank behind →
      Continues values text → Continues (value :: values) (before ++ ',' :: (behind ++ (value ++ text)))

inductive Enclosed (left right : Char) : List (List Char) → List Char → Prop where
  | empty {blanks : List Char} : Blank blanks → Enclosed left right [] (left :: (blanks ++ [right]))
  | filled {blanks value text : List Char} {values : List (List Char)} : Blank blanks → Continues values text →
      Enclosed left right (value :: values) (left :: (blanks ++ (value ++ (text ++ [right]))))

/-- Values with a comma behind each of them, up to where the next value has to begin. -/
inductive Leads : List (List Char) → List Char → Prop where
  | nil {blanks : List Char} : Blank blanks → Leads [] blanks
  | cons {before behind value text : List Char} {values : List (List Char)} : Blank before → Blank behind →
      Leads values text → Leads (value :: values) (before ++ (value ++ (behind ++ ',' :: text)))

def IsMember (key value text : List Char) : Prop :=
  ∃ before behind, Blank before ∧ Blank behind ∧ text = key ++ (before ++ ':' :: (behind ++ value))

theorem blank_nil : Blank [] := by simp [Blank]

theorem skipBlanks_cons {c : Char} (h : isBlank c = false) (cs : List Char) : skipBlanks (c :: cs) = c :: cs := by
  simp [skipBlanks, h]

theorem isBlank_of_mem {c : Char} (h : c ∈ [' ', '\n', '\t', '\r']) : isBlank c = true := by
  simpa [isBlank, or_assoc] using h

theorem skipBlanks_append {blanks : List Char} (blank : Blank blanks) (cs : List Char) :
    skipBlanks (blanks ++ cs) = skipBlanks cs :=
  List.dropWhile_append_of_pos fun c member => isBlank_of_mem (blank c member)

theorem skipBlanks_skipBlanks (cs : List Char) : skipBlanks (skipBlanks cs) = skipBlanks cs :=
  List.dropWhile_idempotent isBlank cs

theorem skipColon_append {blanks : List Char} (blank : Blank blanks) (cs : List Char) :
    skipColon (blanks ++ ':' :: cs) = some cs := by
  rw [skipColon, skipBlanks_append blank, skipBlanks_cons (by decide)]
  rfl

theorem delimited_append {blanks rest : List Char} (blank : Blank blanks) (h : Delimited rest) :
    Delimited (blanks ++ rest) := by
  cases blanks with
  | nil => exact h
  | cons c blanks =>
    have first : c = ' ' ∨ c = '\n' ∨ c = '\t' ∨ c = '\r' := by simpa using blank c List.mem_cons_self
    refine delimited_cons _ ?_
    rcases first with rfl | rfl | rfl | rfl <;> decide

/-- A text that begins like a value. -/
def Starts (cs : List Char) : Prop := ∃ c rest, cs = c :: rest ∧ isBlank c = false ∧ c ≠ ']'

/-- A text that begins like a value other than `null`. -/
def Opens (cs : List Char) : Prop := ∃ c rest, cs = c :: rest ∧ isBlank c = false ∧ c ≠ ']' ∧ c ≠ 'n'

theorem Opens.starts {cs : List Char} (h : Opens cs) : Starts cs := by
  obtain ⟨c, rest, written, notBlank, notEnd, _⟩ := h
  exact ⟨c, rest, written, notBlank, notEnd⟩

theorem Opens.append {cs : List Char} (h : Opens cs) (rest : List Char) : Opens (cs ++ rest) := by
  obtain ⟨c, cs, rfl, first⟩ := h
  exact ⟨c, cs ++ rest, rfl, first⟩

theorem Starts.skipBlanks_eq {cs : List Char} (h : Starts cs) : skipBlanks cs = cs := by
  obtain ⟨c, cs, rfl, notBlank, _⟩ := h
  exact skipBlanks_cons notBlank cs

theorem Starts.append {cs : List Char} (h : Starts cs) (rest : List Char) : Starts (cs ++ rest) := by
  obtain ⟨c, cs, rfl, notBlank, notEnd⟩ := h
  exact ⟨c, cs ++ rest, rfl, notBlank, notEnd⟩

theorem Starts.skipBlanks_append {cs : List Char} (h : Starts cs) (rest : List Char) :
    skipBlanks (cs ++ rest) = cs ++ rest := (h.append rest).skipBlanks_eq

theorem Leads.length_le {values : List (List Char)} {text : List Char} (h : Leads values text) :
    values.length ≤ text.length := by
  induction h with
  | nil _ => exact Nat.zero_le _
  | cons _ _ _ ih =>
    simp only [List.length_append, List.length_cons]
    omega

/-- The first of the values, or what comes next if there are none. A character stands behind each of them. -/
theorem Leads.exists_first {values : List (List Char)} {text : List Char} (h : Leads values text) (next : List Char) :
    ∃ blanks first more, Blank blanks ∧ (first = next ∨ first ∈ values) ∧ text ++ next = blanks ++ (first ++ more) ∧
      values.length ≤ more.length := by
  cases h with
  | nil blank => exact ⟨_, next, [], blank, .inl rfl, by rw [List.append_nil], Nat.le_refl 0⟩
  | @cons before behind value text values blank _ more =>
    have short := more.length_le
    refine ⟨before, value, behind ++ ',' :: (text ++ next), blank, .inr List.mem_cons_self, by simp, ?_⟩
    simp only [List.length_append, List.length_cons]
    omega

theorem not_isBlank_digit {c : Char} (digit : c.isDigit = true) : isBlank c = false := by
  simp only [isBlank, Bool.or_eq_false_iff, beq_eq_false_iff_ne]
  refine ⟨⟨⟨?_, ?_⟩, ?_⟩, ?_⟩ <;>
  · rintro rfl
    exact absurd digit (by decide)

theorem opens_of_isNumber {text : List Char} (h : Number.IsNumber text) : Opens text := by
  obtain ⟨c, cs, written, head⟩ := Number.head_of_isNumber h
  refine ⟨c, cs, written, ?_⟩
  rcases head with rfl | digit
  · decide
  · refine ⟨not_isBlank_digit digit, ?_, ?_⟩ <;>
    · rintro rfl
      exact absurd digit (by decide)

theorem Enclosed.opens {left right : Char} {values : List (List Char)} {text : List Char}
    (h : Enclosed left right values text) (bracket : isBlank left = false ∧ left ≠ ']' ∧ left ≠ 'n') :
    Opens text := by
  cases h with
  | empty _ => exact ⟨left, _, rfl, bracket⟩
  | filled _ _ => exact ⟨left, _, rfl, bracket⟩

namespace Continues

variable {values : List (List Char)} {text : List Char}

theorem length_le (h : Continues values text) : values.length ≤ text.length := by
  induction h with
  | nil _ => exact Nat.zero_le _
  | cons _ _ _ ih =>
    simp only [List.length_append, List.length_cons]
    omega

theorem delimited (h : Continues values text) {rest : List Char} (closed : Delimited rest) :
    Delimited (text ++ rest) := by
  cases h with
  | nil blank => exact delimited_append blank closed
  | cons before _ _ =>
    rw [List.append_assoc]
    exact delimited_append before (delimited_comma _)

end Continues

theorem intercalate_comma (w : List Char) (ws : List (List Char)) :
    List.intercalate [','] (w :: ws) = w ++ ws.flatMap (',' :: ·) := by
  induction ws generalizing w with
  | nil => rw [List.intercalate_singleton, List.flatMap_nil, List.append_nil]
  | cons w' ws ih =>
    rw [List.intercalate_cons_cons, ih, List.flatMap_cons]
    simp

theorem continues_flatMap (values : List (List Char)) : Continues values (values.flatMap (',' :: ·)) := by
  induction values with
  | nil => exact .nil blank_nil
  | cons value values ih => exact .cons blank_nil blank_nil ih

theorem enclosed_intercalate (left right : Char) (values : List (List Char)) :
    Enclosed left right values (left :: (List.intercalate [','] values ++ [right])) := by
  cases values with
  | nil => exact .empty blank_nil
  | cons value values =>
    rw [intercalate_comma, List.append_assoc]
    exact .filled blank_nil (continues_flatMap values)

theorem exists_of_mem_right {α β : Type} {R : α → β → Prop} {xs : List α} {ys : List β} (h : List.Forall₂ R xs ys)
    {y : β} (mem : y ∈ ys) : ∃ x ∈ xs, R x y := by
  induction h with
  | nil => cases mem
  | cons first _ ih =>
    rcases List.mem_cons.mp mem with rfl | later
    · exact ⟨_, List.mem_cons_self, first⟩
    · obtain ⟨x, member, related⟩ := ih later
      exact ⟨x, List.mem_cons_of_mem _ member, related⟩

end CountedStack.Json
