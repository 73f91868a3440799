import CountedStack.Json.Number
import Mathlib.Tactic.Ring

/-!
An integer is read back as it is written. With at most 300 digits it is far from the overflow of a double: what is
kept of it stays below the integer itself (`accumulate_le`), and rounding at most doubles a number.
-/

namespace CountedStack.Json

/-- A text that a number in front of it does not run into. -/
def Delimited (rest : List Char) : Prop :=
  ∀ c ∈ rest.head?, c.isDigit = false ∧ c ≠ '.' ∧ c ≠ 'e' ∧ c ≠ 'E'

@[simp] theorem delimited_nil : Delimited [] := by simp [Delimited]

theorem delimited_cons {c : Char} (cs : List Char)
    (h : c.isDigit = false ∧ c ≠ '.' ∧ c ≠ 'e' ∧ c ≠ 'E') : Delimited (c :: cs) := by
  simpa [Delimited] using h

theorem delimited_comma (cs : List Char) : Delimited (',' :: cs) := delimited_cons cs (by decide)

theorem delimited_bracket (cs : List Char) : Delimited (']' :: cs) := delimited_cons cs (by decide)

theorem delimited_brace (cs : List Char) : Delimited ('}' :: cs) := delimited_cons cs (by decide)

namespace Number

def Digits (ds : List Char) : Prop := ds ≠ [] ∧ ∀ d ∈ ds, d.isDigit = true

/-- Digits of which a leading zero stands alone. -/
def IsWhole (ds : List Char) : Prop := Digits ds ∧ (ds.head? = some '0' → ds = ['0'])

inductive IsFraction : List Char → Prop where
  | none : IsFraction []
  | some {ds : List Char} : Digits ds → IsFraction ('.' :: ds)

inductive IsExponent : List Char → Prop where
  | none : IsExponent []
  | some {letter : Char} {sign ds : List Char} : letter = 'e' ∨ letter = 'E' →
      sign = [] ∨ sign = ['+'] ∨ sign = ['-'] → Digits ds → IsExponent (letter :: (sign ++ ds))

inductive IsNumber : List Char → Prop where
  | mk {minus whole fraction exponent : List Char} : minus = [] ∨ minus = ['-'] → IsWhole whole →
      IsFraction fraction → IsExponent exponent → IsNumber (minus ++ (whole ++ (fraction ++ exponent)))

theorem digits_append {ds rest : List Char} (all : ∀ d ∈ ds, d.isDigit = true)
    (stop : ∀ c ∈ rest.head?, c.isDigit = false) : digits (ds ++ rest) = (ds, rest) := by
  have none : rest.takeWhile Char.isDigit = [] ∧ rest.dropWhile Char.isDigit = rest := by
    cases rest with
    | nil => exact ⟨rfl, rfl⟩
    | cons c cs =>
      have notDigit : c.isDigit = false := stop c rfl
      simp [notDigit]
  rw [digits, List.takeWhile_append_of_pos all, List.dropWhile_append_of_pos all, none.1, none.2,
    List.append_nil]

theorem isDigit_toDigits (n : Nat) : ∀ d ∈ Nat.toDigits 10 n, d.isDigit = true := by
  intro d member
  exact Nat.isDigit_of_mem_toDigits (by decide) (Nat.le_refl 10) member

theorem natOf_cons (d : Char) (ds : List Char) :
    Decimal.natOf (d :: ds) = 10 ^ ds.length * (d.toNat - '0'.toNat) + Decimal.natOf ds := by
  rw [Decimal.natOf, Nat.ofDigitChars_cons, Nat.ofDigitChars_eq_ofDigitChars_zero, Nat.mul_zero, Nat.zero_add]
  rfl

theorem natOf_lt (ds : List Char) (all : ∀ d ∈ ds, d.isDigit = true) : Decimal.natOf ds < 10 ^ ds.length := by
  induction ds with
  | nil => decide
  | cons d ds ih =>
    have rest : Decimal.natOf ds < 10 ^ ds.length := by
      apply ih
      intro x member
      exact all x (List.mem_cons_of_mem d member)
    have digit : d.toNat - '0'.toNat ≤ 9 := by
      obtain ⟨_, below⟩ := Char.isDigit_iff_toNat.mp (all d List.mem_cons_self)
      exact Nat.sub_le_of_le_add below
    calc Decimal.natOf (d :: ds)
        = 10 ^ ds.length * (d.toNat - '0'.toNat) + Decimal.natOf ds := natOf_cons d ds
      _ < 10 ^ ds.length * 9 + 10 ^ ds.length :=
        Nat.add_lt_add_of_le_of_lt (Nat.mul_le_mul_left _ digit) rest
      _ = 10 ^ (d :: ds).length := by rw [List.length_cons, Nat.pow_succ]; omega

/-- A zero in front would be a digit too many for the value. -/
theorem toDigits_ne_zero_cons (n : Nat) (d : Char) (ds : List Char) : Nat.toDigits 10 n ≠ '0' :: d :: ds := by
  intro same
  have all : ∀ x ∈ d :: ds, x.isDigit = true := by
    intro x member
    have digits := isDigit_toDigits n x
    rw [same] at digits
    exact digits (List.mem_cons_of_mem '0' member)
  have value : Decimal.natOf (d :: ds) = n := by
    rw [← Decimal.natOf_toDigits n, same]
    rfl
  have small : n < 10 ^ (d :: ds).length := by
    have below := natOf_lt (d :: ds) all
    rwa [value] at below
  have short := (Nat.length_toDigits_le_iff (by decide) (by simp)).mpr small
  rw [same] at short
  simp at short

theorem isWhole_toDigits (n : Nat) : IsWhole (Nat.toDigits 10 n) := by
  refine ⟨⟨Nat.toDigits_ne_nil, isDigit_toDigits n⟩, ?_⟩
  intro zero
  rcases written : Nat.toDigits 10 n with _ | ⟨d, _ | ⟨e, ds⟩⟩
  · exact absurd written Nat.toDigits_ne_nil
  · simpa [written] using zero
  · obtain rfl : d = '0' := by simpa [written] using zero
    exact absurd written (toDigits_ne_zero_cons n e ds)

section Parts

variable {cs rest : List Char}

theorem wholePart_append (h : IsWhole cs) (stop : ∀ c ∈ rest.head?, c.isDigit = false) :
    wholePart (cs ++ rest) = some (cs, rest) := by
  obtain ⟨⟨nonempty, all⟩, alone⟩ := h
  rw [wholePart, digits_append all stop]
  split
  · rename_i same
    exact absurd (congrArg Prod.fst same) nonempty
  · rename_i same
    obtain ⟨rfl, rfl⟩ := Prod.mk.inj same
    exact absurd (alone rfl) (by simp)
  · rename_i same
    rw [← same]

theorem exists_digits_append (h : Digits cs) (stop : ∀ c ∈ rest.head?, c.isDigit = false) :
    ∃ d ds, cs = d :: ds ∧ digits (cs ++ rest) = (d :: ds, rest) := by
  obtain ⟨nonempty, all⟩ := h
  obtain ⟨d, ds, rfl⟩ := List.exists_cons_of_ne_nil nonempty
  exact ⟨d, ds, rfl, digits_append all stop⟩

theorem fractionPart_none (stop : ∀ c ∈ rest.head?, c ≠ '.') : fractionPart rest = some (none, rest) := by
  cases rest with
  | nil => rfl
  | cons c cs =>
    rw [fractionPart]
    rintro cs' ⟨⟩
    exact stop '.' rfl rfl

theorem fractionPart_append (h : IsFraction cs) (stop : ∀ c ∈ rest.head?, c.isDigit = false ∧ c ≠ '.') :
    ∃ fraction, fractionPart (cs ++ rest) = some (fraction, rest) := by
  cases h with
  | none => exact ⟨none, fractionPart_none fun c next => (stop c next).2⟩
  | some h =>
    obtain ⟨d, ds, rfl, read⟩ := exists_digits_append h fun c next => (stop c next).1
    exact ⟨some (d :: ds), by rw [List.cons_append, fractionPart, read]⟩

theorem exponentPart_none (stop : ∀ c ∈ rest.head?, c ≠ 'e' ∧ c ≠ 'E') :
    exponentPart rest = some (none, rest) := by
  cases rest with
  | nil => rfl
  | cons c cs =>
    have letter : ¬(c = 'e' ∨ c = 'E') := not_or.mpr (stop c rfl)
    unfold exponentPart
    exact if_neg letter

theorem exponentDigits_append (negative : Bool) (h : Digits cs) (stop : ∀ c ∈ rest.head?, c.isDigit = false) :
    ∃ exponent, exponentDigits negative (cs ++ rest) = some (exponent, rest) := by
  obtain ⟨d, ds, rfl, read⟩ := exists_digits_append h stop
  rw [exponentDigits, read]
  exact ⟨_, rfl⟩

theorem exponentPart_append (h : IsExponent cs) (delimited : Delimited rest) :
    ∃ exponent, exponentPart (cs ++ rest) = some (exponent, rest) := by
  cases h with
  | none => exact ⟨none, exponentPart_none fun c next => (delimited c next).2.2⟩
  | @some letter sign ds isLetter signed h =>
    have stop : ∀ c ∈ rest.head?, c.isDigit = false := fun c next => (delimited c next).1
    rcases signed with rfl | rfl | rfl
    · obtain ⟨d, ds, rfl, _⟩ := exists_digits_append h stop
      have digit : d.isDigit = true := h.2 d List.mem_cons_self
      rw [List.cons_append, exponentPart, if_pos isLetter]
      · exact exponentDigits_append false h stop
      all_goals
        rintro cs ⟨⟩
        exact absurd digit (by decide)
    · show ∃ exponent, exponentPart (letter :: '+' :: (ds ++ rest)) = some (exponent, rest)
      rw [exponentPart, if_pos isLetter]
      exact exponentDigits_append false h stop
    · show ∃ exponent, exponentPart (letter :: '-' :: (ds ++ rest)) = some (exponent, rest)
      rw [exponentPart, if_pos isLetter]
      exact exponentDigits_append true h stop

theorem stop_exponent (h : IsExponent cs) (delimited : Delimited rest) :
    ∀ c ∈ (cs ++ rest).head?, c.isDigit = false ∧ c ≠ '.' := by
  cases h with
  | none => exact fun c next => ⟨(delimited c next).1, (delimited c next).2.1⟩
  | some isLetter _ _ =>
    rintro _ ⟨⟩
    rcases isLetter with rfl | rfl <;> decide

theorem stop_fraction (h : IsFraction cs) (stop : ∀ c ∈ rest.head?, c.isDigit = false ∧ c ≠ '.') :
    ∀ c ∈ (cs ++ rest).head?, c.isDigit = false := by
  cases h with
  | none => exact fun c next => (stop c next).1
  | some _ =>
    rintro c ⟨⟩
    decide

theorem sign_digits (h : Digits cs) (rest : List Char) : sign (cs ++ rest) = (false, cs ++ rest) := by
  obtain ⟨nonempty, all⟩ := h
  obtain ⟨d, ds, rfl⟩ := List.exists_cons_of_ne_nil nonempty
  rw [List.cons_append, sign]
  rintro cs ⟨⟩
  exact absurd (all '-' List.mem_cons_self) (by decide)

theorem scan_of_isNumber (h : IsNumber cs) (delimited : Delimited rest) :
    ∃ n, scan (cs ++ rest) = some (n, rest) := by
  cases h with
  | @mk minus whole fraction exponent signed isWhole isFraction isExponent =>
    have afterFraction := stop_exponent isExponent delimited
    have afterWhole := stop_fraction isFraction afterFraction
    have readWhole := wholePart_append isWhole afterWhole
    obtain ⟨f, readFraction⟩ := fractionPart_append isFraction afterFraction
    obtain ⟨e, readExponent⟩ := exponentPart_append isExponent delimited
    rcases signed with rfl | rfl
    · have positive := sign_digits isWhole.1 (fraction ++ (exponent ++ rest))
      refine ⟨⟨false, whole, f, e⟩, ?_⟩
      simp only [List.nil_append, List.append_assoc, scan, positive, readWhole, readFraction, readExponent]
    · refine ⟨⟨true, whole, f, e⟩, ?_⟩
      simp only [List.cons_append, List.nil_append, List.append_assoc, scan, sign, readWhole, readFraction,
        readExponent]

theorem head_of_isNumber (h : IsNumber cs) : ∃ c tail, cs = c :: tail ∧ (c = '-' ∨ c.isDigit = true) := by
  cases h with
  | mk signed isWhole _ _ =>
    obtain ⟨⟨nonempty, all⟩, _⟩ := isWhole
    obtain ⟨d, ds, rfl⟩ := List.exists_cons_of_ne_nil nonempty
    rcases signed with rfl | rfl
    · exact ⟨d, _, rfl, .inr (all d List.mem_cons_self)⟩
    · exact ⟨'-', _, rfl, .inl rfl⟩

end Parts

def ofInt (n : Int) : Number := ⟨decide (n < 0), Nat.toDigits 10 n.natAbs, none, none⟩

theorem sign_write (n : Int) (rest : List Char) :
    sign (Decimal.write n ++ rest) = (decide (n < 0), Nat.toDigits 10 n.natAbs ++ rest) := by
  rw [Decimal.write]
  split
  · rename_i negative
    simp [sign, negative]
  · rename_i positive
    rw [decide_eq_false positive, sign_digits (isWhole_toDigits n.natAbs).1]

theorem isNumber_write (n : Int) : IsNumber (Decimal.write n) := by
  have whole := isWhole_toDigits n.natAbs
  rw [Decimal.write]
  split
  · have negative := IsNumber.mk (.inr rfl) whole .none .none
    rwa [List.append_nil, List.append_nil] at negative
  · have positive := IsNumber.mk (.inl rfl) whole .none .none
    rwa [List.append_nil, List.append_nil] at positive

theorem scan_write (n : Int) {rest : List Char} (h : Delimited rest) :
    scan (Decimal.write n ++ rest) = some (ofInt n, rest) := by
  have whole := wholePart_append (isWhole_toDigits n.natAbs) fun c next => (h c next).1
  have fraction := fractionPart_none fun c next => (h c next).2.1
  have exponent := exponentPart_none fun c next => (h c next).2.2
  simp only [scan, sign_write, whole, fraction, exponent]
  rfl

theorem integer?_ofInt (n : Int) : (ofInt n).integer? = some n := by
  simp only [integer?, ofInt, Decimal.natOf_toDigits]
  by_cases negative : n < 0
  · have nonzero : n.natAbs ≠ 0 := by omega
    have value : -(n.natAbs : Int) = n := by omega
    rw [if_pos (decide_eq_true negative), if_neg nonzero, value]
  · have value : (n.natAbs : Int) = n := by omega
    rw [if_neg (by simpa using negative), value]

/-- The digits that are kept, times the power of ten for the others, do not exceed the number. -/
theorem accumulate_le (m : Nat) (ds : List Char) :
    (accumulate m ds).1 * 10 ^ (accumulate m ds).2.length ≤ Nat.ofDigitChars 10 ds m := by
  induction ds generalizing m with
  | nil => simp [accumulate]
  | cons d ds ih =>
    rw [accumulate]
    split
    · rw [Nat.ofDigitChars_cons]
      exact ih _
    · rw [Nat.ofDigitChars_eq_ofDigitChars_zero, Nat.mul_comm]
      exact Nat.le_add_right ..

theorem round53_le (n : Nat) : round53 n ≤ 2 * n := by
  rcases Nat.eq_zero_or_pos n with rfl | pos
  · decide
  · rw [round53]
    have scale : Nat.pow 2 (n.log2 + 1 - 53) ≤ n :=
      Nat.le_trans (Nat.pow_le_pow_right (by decide) (by omega)) (Nat.log2_self_le (by omega))
    have down : n / Nat.pow 2 (n.log2 + 1 - 53) * Nat.pow 2 (n.log2 + 1 - 53) ≤ n := Nat.div_mul_le_self ..
    split
    · rw [Nat.add_mul]
      omega
    · omega

theorem scaled_ofInt (n : Int) :
    (ofInt n).scaled =
      ((accumulate 0 (Nat.toDigits 10 n.natAbs)).1, ((accumulate 0 (Nat.toDigits 10 n.natAbs)).2.length : Int)) := by
  simp [scaled, ofInt, accumulate]

/-- Each of the three roundings at most doubles its argument. -/
theorem round53_mul_le (m p : Nat) : round53 (round53 m * round53 p) ≤ 8 * (m * p) :=
  calc round53 (round53 m * round53 p)
      ≤ 2 * (round53 m * round53 p) := round53_le _
    _ ≤ 2 * (2 * m * (2 * p)) := Nat.mul_le_mul_left 2 (Nat.mul_le_mul (round53_le m) (round53_le p))
    _ = 8 * (m * p) := by ring

theorem power_lt {m p k : Nat} (pos : 0 < m) (h : m * 10 ^ p < 10 ^ k) : p < k := by
  have power : 10 ^ p < 10 ^ k := Nat.lt_of_le_of_lt (Nat.le_mul_of_pos_left _ pos) h
  exact (Nat.pow_lt_pow_iff_right (by decide)).mp power

theorem not_isHuge_ofInt (n : Int) (h : n.natAbs < 10 ^ 300) : (ofInt n).isHuge = false := by
  rw [isHuge, scaled_ofInt]
  generalize kept : (accumulate 0 (Nat.toDigits 10 n.natAbs)).1 = m
  generalize left : (accumulate 0 (Nat.toDigits 10 n.natAbs)).2.length = p
  have bound : m * 10 ^ p < 10 ^ 300 := by
    have le := accumulate_le 0 (Nat.toDigits 10 n.natAbs)
    rw [kept, left, Nat.ofDigitChars_ten_toDigits] at le
    exact Nat.lt_of_le_of_lt le h
  rcases Nat.eq_zero_or_pos m with rfl | pos
  · rfl
  · have short : p < 300 := power_lt pos bound
    have finite : ¬round53 (round53 m * round53 (Nat.pow 10 (p : Int).toNat)) ≥ Nat.pow 2 1024 := Nat.not_le.mpr <|
      calc round53 (round53 m * round53 (10 ^ p))
          ≤ 8 * (m * 10 ^ p) := round53_mul_le m (10 ^ p)
        _ ≤ 8 * 10 ^ 300 := Nat.mul_le_mul_left 8 (Nat.le_of_lt bound)
        _ < Nat.pow 2 1024 := by decide +kernel
    have inRange : ¬(p : Int) > 308 := by omega
    simp only [decide_eq_false inRange, decide_eq_false finite, Bool.and_false, Bool.or_false]

end Number

end CountedStack.Json
