import CountedStack.Json.Text
import Mathlib.Tactic.SplitIfs

/-! All spellings of a string, of which `quote` writes one. -/

namespace CountedStack.Json.Text

def shortForms : List (Char × Char) :=
  [('"', '"'), ('\\', '\\'), ('/', '/'), ('b', '\x08'), ('f', '\x0c'), ('n', '\n'), ('r', '\r'), ('t', '\t')]

def HexDigit (n : Nat) (c : Char) : Prop := n < 16 ∧ (c = Nat.digitChar n ∨ c = (Nat.digitChar n).toUpper)

/-- A number by a backslash, the letter `u` and four digits. -/
inductive SpellsUnit (n : Nat) : List Char → Prop where
  | mk {p q r s : Nat} {a b c d : Char} : HexDigit p a → HexDigit q b → HexDigit r c → HexDigit s d →
      n = ((p * 16 + q) * 16 + r) * 16 + s → SpellsUnit n ['\\', 'u', a, b, c, d]

def IsPlain (c : Char) : Prop := 0x20 ≤ c.toNat ∧ c ≠ '"' ∧ c ≠ '\\'

inductive SpellsChar (c : Char) : List Char → Prop where
  | plain : IsPlain c → SpellsChar c [c]
  | short {letter : Char} : (letter, c) ∈ shortForms → SpellsChar c ['\\', letter]
  | unit {text : List Char} : SpellsUnit c.toNat text → SpellsChar c text
  | pair {high low : List Char} : 0x10000 ≤ c.toNat → SpellsUnit (0xD800 + (c.toNat - 0x10000) / 0x400) high →
      SpellsUnit (0xDC00 + (c.toNat - 0x10000) % 0x400) low → SpellsChar c (high ++ low)

inductive SpellsChars : List Char → List Char → Prop where
  | nil : SpellsChars [] []
  | cons {c : Char} {cs part text : List Char} : SpellsChar c part → SpellsChars cs text →
      SpellsChars (c :: cs) (part ++ text)

def SpellsString (s : String) (text : List Char) : Prop :=
  ∃ inner, SpellsChars s.toList inner ∧ text = '"' :: (inner ++ ['"'])

/-- The inside of any string. Its units need not come in pairs. -/
inductive IsInner : List Char → Prop where
  | nil : IsInner []
  | plain {c : Char} {text : List Char} : IsPlain c → IsInner text → IsInner (c :: text)
  | short {letter c : Char} {text : List Char} : (letter, c) ∈ shortForms → IsInner text →
      IsInner ('\\' :: letter :: text)
  | unit {n : Nat} {part text : List Char} : SpellsUnit n part → IsInner text → IsInner (part ++ text)

def IsString (text : List Char) : Prop := ∃ inner, IsInner inner ∧ text = '"' :: (inner ++ ['"'])

section Pieces

variable (done : List Piece) (rest : List Char)

theorem scanFrom_plain {c : Char} (h : IsPlain c) : scanFrom done (c :: rest) = scanFrom (.char c :: done) rest := by
  obtain ⟨plain, quote, backslash⟩ := h
  have stop : ¬(c.toNat < 0x20 ∨ c = '\\') := not_or.mpr ⟨Nat.not_lt.mpr plain, backslash⟩
  rw [scanFrom, if_neg stop]
  · exact quote
  · intro _ _ _ _ _ escape
    exact absurd escape backslash
  · intro _ _ escape
    exact absurd escape backslash

theorem scanFrom_short {letter c : Char} (h : (letter, c) ∈ shortForms) :
    scanFrom done ('\\' :: letter :: rest) = scanFrom (.char c :: done) rest := by
  have forms : ∀ form ∈ shortForms, form.1 ≠ 'u' ∧ shortEscape form.1 = some form.2 := by decide
  obtain ⟨notUnit, short⟩ := forms _ h
  rw [scanFrom, short]
  intro _ _ _ _ _ unit
  exact absurd unit notUnit

theorem hexValue_of_hexDigit {n : Nat} {c : Char} (h : HexDigit n c) : hexValue c = some n := by
  obtain ⟨small, rfl | rfl⟩ := h <;> revert n <;> decide

theorem scanFrom_unit {n : Nat} {part : List Char} (h : SpellsUnit n part) :
    scanFrom done (part ++ rest) = scanFrom (.unit n :: done) rest := by
  cases h with
  | mk first second third fourth value =>
    rw [List.cons_append, List.cons_append, List.cons_append, List.cons_append, List.cons_append, List.cons_append,
      List.nil_append, scanFrom, hexUnit, hexValue_of_hexDigit first, hexValue_of_hexDigit second,
      hexValue_of_hexDigit third, hexValue_of_hexDigit fourth, value]

end Pieces

/-- The character that a piece stands for by itself; half of a pair stands for none. -/
def Piece.alone? : Piece → Option Char
  | .char c => some c
  | .unit n => if isHighUnit n || isLowUnit n then none else some (Char.ofNat n)

theorem joinFrom_alone {p : Piece} {c : Char} (h : p.alone? = some c) (done : List Char) (ps : List Piece) :
    joinFrom done (p :: ps) = joinFrom (c :: done) ps := by
  cases p with
  | char d =>
    obtain rfl : d = c := by simpa [Piece.alone?] using h
    rw [joinFrom]
  | unit n =>
    simp only [Piece.alone?, Option.ite_none_left_eq_some, Bool.or_eq_true, not_or] at h
    obtain ⟨⟨high, low⟩, same⟩ := h
    obtain rfl : Char.ofNat n = c := by simpa using same
    -- The reader looks for the partner of a unit before it looks at the unit itself.
    rcases ps with _ | ⟨_ | m, ps⟩ <;> simp [joinFrom, high, low]

theorem unit_alone (c : Char) : (Piece.unit c.toNat).alone? = some c := by
  have valid : c.toNat < 0xD800 ∨ 0xDFFF < c.toNat ∧ c.toNat < 0x110000 := c.valid
  have high : isHighUnit c.toNat = false := by
    simp only [isHighUnit, Bool.and_eq_false_iff, decide_eq_false_iff_not]
    omega
  have low : isLowUnit c.toNat = false := by
    simp only [isLowUnit, Bool.and_eq_false_iff, decide_eq_false_iff_not]
    omega
  simp [Piece.alone?, high, low, Char.ofNat_toNat]

theorem joinFrom_pair {c : Char} (above : 0x10000 ≤ c.toNat) (done : List Char) (ps : List Piece) :
    joinFrom done (.unit (0xD800 + (c.toNat - 0x10000) / 0x400) ::
      .unit (0xDC00 + (c.toNat - 0x10000) % 0x400) :: ps) = joinFrom (c :: done) ps := by
  have valid : c.toNat < 0xD800 ∨ 0xDFFF < c.toNat ∧ c.toNat < 0x110000 := c.valid
  generalize split : c.toNat - 0x10000 = n
  have high : isHighUnit (0xD800 + n / 0x400) = true := by
    simp only [isHighUnit, Bool.and_eq_true, decide_eq_true_eq]
    omega
  have low : isLowUnit (0xDC00 + n % 0x400) = true := by
    simp only [isLowUnit, Bool.and_eq_true, decide_eq_true_eq]
    omega
  have value : 0x10000 + (0xD800 + n / 0x400 - 0xD800) * 0x400 + (0xDC00 + n % 0x400 - 0xDC00) = c.toNat := by omega
  have joined : pairChar (0xD800 + n / 0x400) (0xDC00 + n % 0x400) = c := by
    rw [pairChar, value, Char.ofNat_toNat]
  rw [joinFrom, if_pos high, if_pos low, joined]

theorem pieces_of_spellsChar {c : Char} {part : List Char} (h : SpellsChar c part) :
    ∃ ps : List Piece, (∀ done qs, joinFrom done (ps ++ qs) = joinFrom (c :: done) qs) ∧
      ∀ done rest, scanFrom done (part ++ rest) = scanFrom (ps.reverse ++ done) rest := by
  cases h with
  | plain h => exact ⟨[.char c], joinFrom_alone rfl, fun done rest => scanFrom_plain done rest h⟩
  | short h => exact ⟨[.char c], joinFrom_alone rfl, fun done rest => scanFrom_short done rest h⟩
  | unit h => exact ⟨[.unit c.toNat], joinFrom_alone (unit_alone c), fun done rest => scanFrom_unit done rest h⟩
  | pair above high low =>
    refine ⟨[.unit _, .unit _], joinFrom_pair above, ?_⟩
    intro done rest
    rw [List.append_assoc, scanFrom_unit done _ high, scanFrom_unit _ rest low]
    rfl

theorem pieces_of_spellsChars {cs inner : List Char} (h : SpellsChars cs inner) :
    ∃ ps : List Piece, (∀ done, joinFrom done ps = some (done.reverse ++ cs)) ∧
      ∀ done rest, scanFrom done (inner ++ rest) = scanFrom (ps.reverse ++ done) rest := by
  induction h with
  | nil =>
    refine ⟨[], ?_, fun _ _ => rfl⟩
    intro done
    rw [joinFrom, List.append_nil]
  | cons first _ ih =>
    obtain ⟨ps, joined, scanned⟩ := pieces_of_spellsChar first
    obtain ⟨qs, joined', scanned'⟩ := ih
    refine ⟨ps ++ qs, ?_, ?_⟩
    · intro done
      rw [joined, joined', List.reverse_cons, List.append_assoc]
      rfl
    · intro done rest
      rw [List.append_assoc, scanned, scanned', List.reverse_append, List.append_assoc]

theorem unquote_of_spells {s : String} {inner : List Char} (h : SpellsChars s.toList inner) (rest : List Char) :
    unquote (inner ++ '"' :: rest) = some (s, rest) := by
  obtain ⟨ps, joined, scanned⟩ := pieces_of_spellsChars h
  have pieces : scan (inner ++ '"' :: rest) = some (ps, rest) := by
    rw [scan, scanned, scanFrom, List.append_nil, List.reverse_reverse]
  have chars : join ps = some s.toList := joined []
  simp only [unquote, pieces, chars, Option.map_some, String.ofList_toList]

theorem scan_of_isInner {inner : List Char} (h : IsInner inner) (rest : List Char) :
    ∃ ps, scan (inner ++ '"' :: rest) = some (ps, rest) := by
  suffices scanned : ∀ done, ∃ ps, scanFrom done (inner ++ '"' :: rest) = some (ps, rest) from scanned []
  induction h with
  | nil => exact fun done => ⟨done.reverse, by rw [List.nil_append, scanFrom]⟩
  | plain h _ ih =>
    intro done
    rw [List.cons_append, scanFrom_plain done _ h]
    exact ih _
  | short h _ ih =>
    intro done
    rw [List.cons_append, List.cons_append, scanFrom_short done _ h]
    exact ih _
  | unit h _ ih =>
    intro done
    rw [List.append_assoc, scanFrom_unit done _ h]
    exact ih _

theorem hexDigit_hexDigit (n : Nat) : HexDigit (n % 16) (hexDigit n) := ⟨Nat.mod_lt n (by decide), .inl rfl⟩

theorem spellsChar_escape (c : Char) : SpellsChar c (escape c) := by
  unfold escape
  split_ifs with quote backslash backspace feed line carriage tab control
  · exact .short (by rw [quote]; decide)
  · exact .short (by rw [backslash]; decide)
  · exact .short (by rw [backspace]; decide)
  · exact .short (by rw [feed]; decide)
  · exact .short (by rw [line]; decide)
  · exact .short (by rw [carriage]; decide)
  · exact .short (by rw [tab]; decide)
  · have zero : HexDigit 0 '0' := ⟨by decide, .inl rfl⟩
    exact .unit (.mk zero zero (hexDigit_hexDigit _) (hexDigit_hexDigit _) (by omega))
  · exact .plain ⟨Nat.le_of_not_lt control, quote, backslash⟩

theorem spellsChars_escape (cs : List Char) : SpellsChars cs (cs.flatMap escape) := by
  induction cs with
  | nil => exact .nil
  | cons c cs ih => exact .cons (spellsChar_escape c) ih

theorem spellsString_quote (s : String) : SpellsString s (quote s) := ⟨_, spellsChars_escape s.toList, rfl⟩

end CountedStack.Json.Text
