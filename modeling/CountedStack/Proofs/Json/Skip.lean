import CountedStack.Json.Skip
import CountedStack.Proofs.Json.Layout
import CountedStack.Proofs.Json.Text

/-!
`IsValue` is the grammar of JSON, written down without the reader. The walk takes a value off to its very end, in no
more steps than the value has characters, so that the fuel of `skipValue` is enough.
-/

namespace CountedStack.Json

/-- The text of any value, without blanks around it. -/
inductive IsValue : List Char → Prop where
  | null : IsValue ['n', 'u', 'l', 'l']
  | true : IsValue ['t', 'r', 'u', 'e']
  | false : IsValue ['f', 'a', 'l', 's', 'e']
  | number {text : List Char} : Number.IsNumber text → IsValue text
  | string {text : List Char} : Text.IsString text → IsValue text
  | list {values : List (List Char)} {text : List Char} : (∀ value ∈ values, IsValue value) →
      Enclosed '[' ']' values text → IsValue text
  | object {members : List (List Char × List Char)} {texts : List (List Char)} {text : List Char} :
      (∀ m ∈ members, Text.IsString m.1) → (∀ m ∈ members, IsValue m.2) →
      List.Forall₂ (fun m text => IsMember m.1 m.2 text) members texts → Enclosed '{' '}' texts text → IsValue text

namespace Bracket

def left : Bracket → Char
  | .list => '['
  | .object => '{'

def right : Bracket → Char
  | .list => ']'
  | .object => '}'

/-- The value that the walk comes to behind a bracket or a comma: in an object, the key goes first. -/
def enter : Bracket → List Char → Option (List Char)
  | .list, cs => some cs
  | .object, cs => skipKey cs

end Bracket

section Steps

variable {blanks : List Char} (blank : Blank blanks) (fuel : Nat) (b : Bracket) (opened : List Bracket)

include blank

theorem skipFrom_comma (cs : List Char) :
    skipFrom (fuel + 1) .behind (b :: opened) (blanks ++ ',' :: cs) =
      (b.enter cs).bind (skipFrom fuel .value (b :: opened)) := by
  cases b with
  | list =>
    rw [skipFrom, skipBlanks_append blank, skipBlanks_cons (by decide)]
    rfl
  | object =>
    rw [skipFrom, skipBlanks_append blank, skipBlanks_cons (by decide), Bracket.enter]
    cases key : skipKey cs <;> simp only [key] <;> rfl

theorem skipFrom_right (rest : List Char) :
    skipFrom (fuel + 1) .behind (b :: opened) (blanks ++ b.right :: rest) = skipFrom fuel .behind opened rest := by
  cases b with
  | list =>
    rw [skipFrom, skipBlanks_append blank, Bracket.right, skipBlanks_cons (by decide)]
    rfl
  | object =>
    rw [skipFrom, skipBlanks_append blank, Bracket.right, skipBlanks_cons (by decide)]
    rfl

theorem skipFrom_left_right {inside : List Char} (empty : Blank inside) (rest : List Char) :
    skipFrom (fuel + 1) .value opened (blanks ++ b.left :: (inside ++ b.right :: rest)) =
      skipFrom fuel .behind opened rest := by
  cases b with
  | list =>
    rw [skipFrom, skipBlanks_append blank, Bracket.left, skipBlanks_cons (by decide)]
    simp only [skipBlanks_append empty, Bracket.right, skipBlanks_cons (show isBlank ']' = false by decide)]
  | object =>
    rw [skipFrom, skipBlanks_append blank, Bracket.left, skipBlanks_cons (by decide)]
    simp only [skipBlanks_append empty, Bracket.right, skipBlanks_cons (show isBlank '}' = false by decide)]

theorem skipFrom_left {inside cs : List Char} {c : Char} (notBlank : isBlank c = false) (notRight : c ≠ b.right)
    (inner : Blank inside) :
    skipFrom (fuel + 1) .value opened (blanks ++ b.left :: (inside ++ c :: cs)) =
      (b.enter (c :: cs)).bind (skipFrom fuel .value (b :: opened)) := by
  cases b with
  | list =>
    rw [skipFrom, skipBlanks_append blank, Bracket.left, skipBlanks_cons (by decide)]
    simp only [skipBlanks_append inner, skipBlanks_cons notBlank]
    split
    · rename_i same
      exact absurd (List.cons.inj same).1 notRight
    · rfl
  | object =>
    rw [skipFrom, skipBlanks_append blank, Bracket.left, skipBlanks_cons (by decide), Bracket.enter]
    simp only [skipBlanks_append inner, skipBlanks_cons notBlank]
    split
    · rename_i same
      exact absurd (List.cons.inj same).1 notRight
    · cases skipKey (c :: cs) <;> rfl

end Steps

/-- The walk takes the text off in `n` steps and stands behind it. -/
def Passes (n : Nat) (text : List Char) : Prop :=
  ∀ (fuel : Nat) (opened : List Bracket) (blanks rest : List Char), Blank blanks → Delimited rest →
    skipFrom (fuel + n) .value opened (blanks ++ (text ++ rest)) = skipFrom fuel .behind opened rest

def Bracket.Passes (b : Bracket) (n : Nat) (text : List Char) : Prop :=
  ∀ (fuel : Nat) (opened : List Bracket) (blanks rest : List Char), Blank blanks → Delimited rest →
    (b.enter (blanks ++ (text ++ rest))).bind (skipFrom (fuel + n) .value (b :: opened)) =
      skipFrom fuel .behind (b :: opened) rest

theorem passes_scalar {c : Char} {cs : List Char} (notBlank : isBlank c = false) (notList : c ≠ '[')
    (notObject : c ≠ '{') (scalar : ∀ rest, Delimited rest → skipScalar (c :: cs ++ rest) = some rest) :
    Passes 1 (c :: cs) := by
  intro fuel opened blanks rest blank delimited
  have skipped := scalar rest delimited
  rw [List.cons_append] at skipped ⊢
  rw [skipFrom, skipBlanks_append blank, skipBlanks_cons notBlank]
  split
  · rename_i same
    exact absurd (List.cons.inj same).1 notList
  · rename_i same
    exact absurd (List.cons.inj same).1 notObject
  · rw [skipped]

theorem passes_member {key value text : List Char} {n : Nat} (isKey : Text.IsString key) (passes : Passes n value)
    (member : IsMember key value text) : Bracket.object.Passes n text := by
  obtain ⟨inner, isInner, rfl⟩ := isKey
  obtain ⟨before, behind, blankBefore, blankBehind, rfl⟩ := member
  intro fuel opened blanks rest blank delimited
  obtain ⟨ps, scanned⟩ := Text.scan_of_isInner isInner (before ++ ':' :: (behind ++ (value ++ rest)))
  have key : skipKey (blanks ++ ('"' :: (inner ++ ['"']) ++ (before ++ ':' :: (behind ++ value)) ++ rest)) =
      some (behind ++ (value ++ rest)) := by
    rw [skipKey, skipBlanks_append blank, List.cons_append, List.cons_append, skipBlanks_cons (by decide)]
    simp only [List.append_assoc, List.cons_append, List.nil_append, scanned]
    exact skipColon_append blankBefore _
  rw [Bracket.enter, key]
  exact passes fuel (.object :: opened) behind rest blankBehind delimited

section Brackets

variable (b : Bracket)

theorem Bracket.delimited_right (rest : List Char) : Delimited (b.right :: rest) := by
  cases b with
  | list => exact delimited_bracket rest
  | object => exact delimited_brace rest

theorem skipFrom_of_continues {values : List (List Char)} {text : List Char} (h : Continues values text)
    (passes : ∀ value ∈ values, ∃ n ≤ value.length, b.Passes n value) :
    ∃ n ≤ text.length + 1, ∀ fuel opened rest,
      skipFrom (fuel + n) .behind (b :: opened) (text ++ b.right :: rest) = skipFrom fuel .behind opened rest := by
  induction h with
  | nil blank =>
    refine ⟨1, Nat.le_add_left .., ?_⟩
    intro fuel opened rest
    exact skipFrom_right blank fuel b opened rest
  | @cons before behind value text values blankBefore blankBehind more ih =>
    obtain ⟨one, others⟩ := List.forall_mem_cons.mp passes
    obtain ⟨n, short, first⟩ := one
    obtain ⟨m, short', later⟩ := ih others
    refine ⟨m + n + 1, ?_, ?_⟩
    · simp only [List.length_append, List.length_cons]
      omega
    · intro fuel opened rest
      have steps : fuel + (m + n + 1) = fuel + m + n + 1 := by omega
      have assoc : before ++ ',' :: (behind ++ (value ++ text)) ++ b.right :: rest =
          before ++ ',' :: (behind ++ (value ++ (text ++ b.right :: rest))) := by simp
      rw [steps, assoc, skipFrom_comma blankBefore,
        first _ opened behind _ blankBehind (more.delimited (b.delimited_right rest))]
      exact later fuel opened rest

theorem passes_enclosed {values : List (List Char)} {text : List Char} (h : Enclosed b.left b.right values text)
    (starts : ∀ value ∈ values, ∃ c cs, value = c :: cs ∧ isBlank c = false ∧ c ≠ b.right)
    (passes : ∀ value ∈ values, ∃ n ≤ value.length, b.Passes n value) : ∃ n ≤ text.length, Passes n text := by
  cases h with
  | empty blank =>
    refine ⟨1, Nat.le_add_left .., ?_⟩
    intro fuel opened blanks rest blanks' _
    have assoc : ∀ inside : List Char, b.left :: (inside ++ [b.right]) ++ rest =
        b.left :: (inside ++ b.right :: rest) := by simp
    rw [assoc]
    exact skipFrom_left_right blanks' fuel b opened blank rest
  | @filled inside value text values blank more =>
    obtain ⟨one, others⟩ := List.forall_mem_cons.mp passes
    obtain ⟨n, short, first⟩ := one
    obtain ⟨m, short', later⟩ := skipFrom_of_continues b more others
    obtain ⟨c, cs, rfl, notBlank, notRight⟩ := starts value List.mem_cons_self
    refine ⟨m + n + 1, ?_, ?_⟩
    · simp only [List.length_append, List.length_cons] at short ⊢
      omega
    · intro fuel opened blanks rest blanks' delimited
      have steps : fuel + (m + n + 1) = fuel + m + n + 1 := by omega
      have assoc : b.left :: (inside ++ (c :: cs ++ (text ++ [b.right]))) ++ rest =
          b.left :: (inside ++ c :: (cs ++ (text ++ b.right :: rest))) := by simp
      have entered := first (fuel + m) opened [] _ blank_nil (more.delimited (b.delimited_right rest))
      rw [steps, assoc, skipFrom_left blanks' _ b opened notBlank notRight blank]
      exact entered.trans (later fuel opened rest)

end Brackets

theorem skipScalar_number {c : Char} (head : c = '-' ∨ c.isDigit = true) (cs : List Char) :
    skipScalar (c :: cs) = (Number.scan (c :: cs)).map (·.2) := by
  rw [skipScalar]
  all_goals
    rintro _ ⟨⟩
    exact absurd head (by decide)

theorem passes_number {text : List Char} (h : Number.IsNumber text) : Passes 1 text := by
  obtain ⟨c, cs, rfl, head⟩ := Number.head_of_isNumber h
  have bracket : c ≠ '[' ∧ c ≠ '{' := by
    constructor <;>
    · rintro rfl
      exact absurd head (by decide)
  obtain ⟨_, _, same, notBlank, _⟩ := opens_of_isNumber h
  obtain ⟨rfl, rfl⟩ := List.cons.inj same
  refine passes_scalar notBlank bracket.1 bracket.2 ?_
  intro rest delimited
  obtain ⟨n, scanned⟩ := Number.scan_of_isNumber h delimited
  rw [List.cons_append] at scanned ⊢
  rw [skipScalar_number head, scanned]
  rfl

namespace IsValue

variable {text : List Char}

theorem starts (h : IsValue text) : Starts text := by
  cases h with
  | null => exact ⟨_, _, rfl, by decide⟩
  | true => exact ⟨_, _, rfl, by decide⟩
  | false => exact ⟨_, _, rfl, by decide⟩
  | number h => exact (opens_of_isNumber h).starts
  | string h =>
    obtain ⟨inner, _, rfl⟩ := h
    exact ⟨_, _, rfl, by decide⟩
  | list _ enclosed => exact (enclosed.opens (by decide)).starts
  | object _ _ _ enclosed => exact (enclosed.opens (by decide)).starts

theorem passes (h : IsValue text) : ∃ n ≤ text.length, Passes n text := by
  induction h with
  | null => exact ⟨1, by decide, passes_scalar (by decide) (by decide) (by decide) fun _ _ => rfl⟩
  | true => exact ⟨1, by decide, passes_scalar (by decide) (by decide) (by decide) fun _ _ => rfl⟩
  | false => exact ⟨1, by decide, passes_scalar (by decide) (by decide) (by decide) fun _ _ => rfl⟩
  | number h =>
    refine ⟨1, ?_, passes_number h⟩
    obtain ⟨c, cs, rfl, _⟩ := Number.head_of_isNumber h
    exact Nat.le_add_left ..
  | string h =>
    obtain ⟨inner, isInner, rfl⟩ := h
    refine ⟨1, Nat.le_add_left .., passes_scalar (by decide) (by decide) (by decide) ?_⟩
    intro rest _
    obtain ⟨ps, scanned⟩ := Text.scan_of_isInner isInner rest
    simp [skipScalar, scanned]
  | list values enclosed ih =>
    refine passes_enclosed .list enclosed (fun value member => (values value member).starts) ?_
    intro value member
    obtain ⟨n, short, passes⟩ := ih value member
    exact ⟨n, short, fun fuel opened => passes fuel (.list :: opened)⟩
  | object keys _ members enclosed ih =>
    refine passes_enclosed .object enclosed ?_ ?_
    · intro text member
      obtain ⟨m, member, isMember⟩ := exists_of_mem_right members member
      obtain ⟨inner, _, key⟩ := keys m member
      obtain ⟨before, behind, _, _, rfl⟩ := isMember
      rw [key]
      exact ⟨'"', _, rfl, by decide⟩
    · intro text member
      obtain ⟨m, member, isMember⟩ := exists_of_mem_right members member
      obtain ⟨n, short, passes⟩ := ih m member
      refine ⟨n, ?_, passes_member (keys m member) passes isMember⟩
      obtain ⟨before, behind, _, _, rfl⟩ := isMember
      simp only [List.length_append, List.length_cons]
      omega

end IsValue

theorem skipValue_of_isValue {text blanks rest : List Char} (h : IsValue text) (blank : Blank blanks)
    (delimited : Delimited rest) : skipValue (blanks ++ (text ++ rest)) = some rest := by
  obtain ⟨n, short, passes⟩ := h.passes
  have enough : ∃ fuel, (blanks ++ (text ++ rest)).length + 1 = fuel + n := by
    simp only [List.length_append]
    exact ⟨blanks.length + (text.length + rest.length) + 1 - n, by omega⟩
  obtain ⟨fuel, enough⟩ := enough
  rw [skipValue, enough, passes fuel [] blanks rest blank delimited, skipFrom]

end CountedStack.Json
