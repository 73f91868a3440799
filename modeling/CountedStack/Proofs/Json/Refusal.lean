import CountedStack.Json.Record
import CountedStack.Proofs.Json.Skip
import CountedStack.Proofs.Json.Value

/-!
A reader of one type refuses a value of any other as soon as it has made sure that there is one: a list or an
object at its bracket, all others at their end.
-/

namespace CountedStack.Json

/-- The types of JSON values. A number counts as an integer only. -/
inductive Shape where
  | null
  | bool
  | string
  | integer
  | list
  | object
deriving DecidableEq

namespace Shape

/-- A value of the type. Integers are those that a 64-bit word holds, signed or not. -/
def Spells : Shape → List Char → Prop
  | .null, text => text = writeNull
  | .bool, text => ∃ b, text = writeBool b
  | .string, text => ∃ s, Text.SpellsString s text
  | .integer, text => (∃ n, isWord n = true ∧ text = Decimal.write n) ∨ text = ['-', '0']
  | .list, text => IsValue text ∧ text.head? = some '['
  | .object, text => IsValue text ∧ text.head? = some '{'

def ofHead (c : Char) : Shape :=
  if c = '"' then .string
  else if c = '[' then .list
  else if c = '{' then .object
  else if c = '-' ∨ c.isDigit = true then .integer
  else if c = 'n' then .null
  else .bool

theorem ofHead_of_number {c : Char} (head : c = '-' ∨ c.isDigit = true) : ofHead c = .integer := by
  have other : c ≠ '"' ∧ c ≠ '[' ∧ c ≠ '{' := by
    refine ⟨?_, ?_, ?_⟩ <;>
    · rintro rfl
      exact absurd head (by decide)
  obtain ⟨quote, bracket, brace⟩ := other
  rw [ofHead, if_neg quote, if_neg bracket, if_neg brace, if_pos head]

variable {shape : Shape} {text : List Char}

theorem Spells.head (h : shape.Spells text) :
    ∃ c cs, text = c :: cs ∧ isBlank c = false ∧ ofHead c = shape := by
  cases shape with
  | null => exact ⟨'n', _, h, by decide⟩
  | bool =>
    obtain ⟨b, rfl⟩ := h
    cases b
    · exact ⟨'f', _, rfl, by decide⟩
    · exact ⟨'t', _, rfl, by decide⟩
  | string =>
    obtain ⟨s, inner, _, rfl⟩ := h
    exact ⟨'"', _, rfl, by decide⟩
  | integer =>
    rcases h with ⟨n, _, rfl⟩ | rfl
    · obtain ⟨c, cs, written, head⟩ := Number.head_of_isNumber (Number.isNumber_write n)
      obtain ⟨_, _, same, notBlank, _⟩ := opens_write n
      obtain ⟨rfl, rfl⟩ := List.cons.inj (written.symm.trans same)
      exact ⟨c, cs, written, notBlank, ofHead_of_number head⟩
    · exact ⟨'-', _, rfl, by decide⟩
  | list =>
    obtain ⟨cs, rfl⟩ := List.head?_eq_some_iff.mp h.2
    exact ⟨'[', cs, rfl, by decide⟩
  | object =>
    obtain ⟨cs, rfl⟩ := List.head?_eq_some_iff.mp h.2
    exact ⟨'{', cs, rfl, by decide⟩

end Shape

theorem scan_negative_zero {rest : List Char} (delimited : Delimited rest) :
    Number.scan ('-' :: '0' :: rest) = some (⟨true, ['0'], none, none⟩, rest) := by
  have whole := Number.wholePart_append (Number.isWhole_toDigits 0) fun c next => (delimited c next).1
  have fraction := Number.fractionPart_none fun c next => (delimited c next).2.1
  have exponent := Number.exponentPart_none fun c next => (delimited c next).2.2
  have zero : '0' :: rest = Nat.toDigits 10 0 ++ rest := rfl
  simp only [Number.scan, Number.sign, zero, whole, fraction, exponent]
  rfl

theorem refuse_of_scan {c : Char} {cs rest : List Char} (notBlank : isBlank c = false)
    (head : c = '-' ∨ c.isDigit = true) {n : Number} (scanned : Number.scan (c :: cs) = some (n, rest))
    (finite : n.isHuge = false) : refuse (c :: cs) = .wrongType := by
  rw [refuse, skipBlanks_cons notBlank]
  split
  case h_1 | h_2 | h_3 =>
    rename_i same
    obtain ⟨rfl, _⟩ := List.cons.inj same
    exact absurd head (by decide)
  case h_4 =>
    rw [List.head?_cons]
    simp only [if_pos head, scanned, finite]
    exact if_neg Bool.false_ne_true

theorem refuse_of_spells {shape : Shape} {text rest : List Char} (h : shape.Spells text)
    (delimited : Delimited rest) : refuse (text ++ rest) = .wrongType := by
  cases shape with
  | null =>
    obtain rfl := h
    rfl
  | bool =>
    obtain ⟨b, rfl⟩ := h
    cases b <;> rfl
  | string =>
    obtain ⟨s, inner, spelled, rfl⟩ := h
    have unquoted := Text.unquote_of_spells spelled rest
    rw [refuse, List.cons_append, skipBlanks_cons (by decide), List.append_assoc]
    simp [unquoted]
  | integer =>
    rcases h with ⟨n, word, rfl⟩ | rfl
    · have scanned := Number.scan_write n delimited
      have finite := Number.not_isHuge_ofInt n (natAbs_lt_of_isWord word)
      obtain ⟨c, cs, written, head⟩ := Number.head_of_isNumber (Number.isNumber_write n)
      obtain ⟨_, _, same, notBlank, _⟩ := opens_write n
      obtain ⟨rfl, rfl⟩ := List.cons.inj (written.symm.trans same)
      rw [written, List.cons_append] at scanned ⊢
      exact refuse_of_scan notBlank head scanned finite
    · exact refuse_of_scan (by decide) (.inl rfl) (scan_negative_zero delimited) (by decide)
  | list =>
    obtain ⟨cs, rfl⟩ := List.head?_eq_some_iff.mp h.2
    rw [refuse, List.cons_append, skipBlanks_cons (by decide)]
    rfl
  | object =>
    obtain ⟨cs, rfl⟩ := List.head?_eq_some_iff.mp h.2
    rw [refuse, List.cons_append, skipBlanks_cons (by decide)]
    rfl

/-- A text that begins with a value of none of the wanted types. -/
def Foreign (wanted : List Shape) (cs : List Char) : Prop :=
  ∃ shape text rest, shape ∉ wanted ∧ Shape.Spells shape text ∧ Delimited rest ∧ cs = text ++ rest

theorem Foreign.refused {wanted : List Shape} {cs : List Char} (h : Foreign wanted cs) :
    ∃ c rest, cs = c :: rest ∧ isBlank c = false ∧ Shape.ofHead c ∉ wanted ∧ refuse (c :: rest) = .wrongType := by
  obtain ⟨shape, text, rest, unwanted, spelled, delimited, rfl⟩ := h
  have refused := refuse_of_spells spelled delimited
  obtain ⟨c, cs, rfl, notBlank, rfl⟩ := spelled.head
  exact ⟨c, cs ++ rest, rfl, notBlank, unwanted, refused⟩

theorem readString_of_foreign {cs : List Char} (h : Foreign [.string] cs) : readString cs = .error .wrongType := by
  obtain ⟨c, cs, rfl, notBlank, unwanted, refused⟩ := h.refused
  rw [readString, skipBlanks_cons notBlank]
  split
  · rename_i same
    obtain ⟨rfl, _⟩ := List.cons.inj same
    exact absurd List.mem_cons_self unwanted
  · rw [refused]

theorem readList_of_foreign {α : Type} (read : Reader α) {cs : List Char} (h : Foreign [.list] cs) :
    readList read cs = .error .wrongType := by
  obtain ⟨c, cs, rfl, notBlank, unwanted, refused⟩ := h.refused
  rw [readList, skipBlanks_cons notBlank]
  split
  · rename_i same
    obtain ⟨rfl, _⟩ := List.cons.inj same
    exact absurd List.mem_cons_self unwanted
  · rw [refused]

theorem Record.read_of_foreign {ρ β : Type} (record : Record ρ β) {cs : List Char}
    (h : Foreign [.object, .list] cs) : record.read cs = .error .wrongType := by
  obtain ⟨c, cs, rfl, notBlank, unwanted, refused⟩ := h.refused
  rw [Record.read, skipBlanks_cons notBlank]
  split
  · rename_i same
    obtain ⟨rfl, _⟩ := List.cons.inj same
    exact absurd List.mem_cons_self unwanted
  · rename_i same
    obtain ⟨rfl, _⟩ := List.cons.inj same
    exact absurd (List.mem_cons_of_mem _ List.mem_cons_self) unwanted
  · rw [refused]

section Integers

variable {lo hi : Int} (words : isWord lo = true ∧ isWord hi = true)

include words

theorem readInt_of_foreign {cs : List Char} (h : Foreign [.integer] cs) : readInt lo hi cs = .error .wrongType := by
  obtain ⟨c, cs, rfl, notBlank, unwanted, refused⟩ := h.refused
  have notNumber : ¬(c = '-' ∨ c.isDigit = true) := by
    intro number
    rw [Shape.ofHead_of_number number] at unwanted
    exact unwanted List.mem_cons_self
  rw [readInt, if_pos words, readWord, skipBlanks_cons notBlank, List.head?_cons]
  simp only [if_neg notNumber, refused]

theorem readInt_write_of_outside {n : Int} (small : n.natAbs < 10 ^ 300) (outside : n < lo ∨ hi < n)
    {rest : List Char} (delimited : Delimited rest) :
    readInt lo hi (Decimal.write n ++ rest) = .error (if isWord n then .outOfRange else .wrongType) := by
  have unheld : (Bounded.ofInt? n : Option (Bounded lo hi)) = none := Bounded.ofInt?_eq_none_iff.mpr outside
  rw [readInt, if_pos words, readWord_write small delimited, unheld]

theorem readInt_of_outside {n : Int} (word : isWord n = true) (outside : n < lo ∨ hi < n) {rest : List Char}
    (delimited : Delimited rest) : readInt lo hi (Decimal.write n ++ rest) = .error .outOfRange := by
  rw [readInt_write_of_outside words (natAbs_lt_of_isWord word) outside delimited, if_pos word]

end Integers

end CountedStack.Json
