import CountedStack.Json.Value
import CountedStack.Proofs.Json.Layout
import CountedStack.Proofs.Json.Text
import Mathlib.Data.List.Forall2

/-!
`ReadsBack spells write read norm` says that `read` takes every spelling of a value off the front of a text and
answers the value up to `norm`, and that `write` writes one of the spellings.
-/

namespace CountedStack.Json

variable {α : Type}

/-- The reader takes the text off and answers the value, whatever comes next that a number does not run into. -/
def Reads (read : Reader α) (text : List Char) (x : α) : Prop :=
  ∀ rest, Delimited rest → read (text ++ rest) = .ok (x, rest)

/-- The reader does not mind blanks in front of a value. -/
def PassesBlanks (read : Reader α) : Prop := ∀ cs, read (skipBlanks cs) = read cs

theorem PassesBlanks.read_append {read : Reader α} (h : PassesBlanks read) {blanks : List Char}
    (blank : Blank blanks) (cs : List Char) : read (blanks ++ cs) = read cs := by
  rw [← h, skipBlanks_append blank, h]

structure ReadsBack (spells : α → List Char → Prop) (write : α → List Char) (read : Reader α) (norm : α → α) :
    Prop where
  blanks : PassesBlanks read
  written : ∀ x, spells x (write x)
  opens : ∀ {x text}, spells x text → text = writeNull ∧ write x = writeNull ∨ Opens text ∧ Opens (write x)
  reads : ∀ {x text}, spells x text → Reads read text (norm x)
  write_norm : ∀ x, write (norm x) = write x

theorem ReadsBack.starts {spells : α → List Char → Prop} {write : α → List Char} {read : Reader α} {norm : α → α}
    (h : ReadsBack spells write read norm) {x : α} {text : List Char} (spelled : spells x text) : Starts text := by
  rcases h.opens spelled with ⟨rfl, _⟩ | ⟨opens, _⟩
  · exact ⟨'n', _, rfl, by decide⟩
  · exact opens.starts

theorem opens_writeBool (b : Bool) : Opens (writeBool b) := by
  cases b
  · exact ⟨'f', _, rfl, by decide⟩
  · exact ⟨'t', _, rfl, by decide⟩

theorem readsBack_bool : ReadsBack (fun b text => text = writeBool b) writeBool readBool id where
  blanks cs := by simp only [readBool, skipBlanks_skipBlanks]
  written _ := rfl
  opens := by
    rintro b _ rfl
    exact .inr ⟨opens_writeBool b, opens_writeBool b⟩
  reads := by
    rintro b _ rfl rest _
    cases b <;> rfl
  write_norm _ := rfl

theorem opens_of_spellsString {s : String} {text : List Char} (h : Text.SpellsString s text) : Opens text := by
  obtain ⟨inner, _, rfl⟩ := h
  exact ⟨'"', _, rfl, by decide⟩

theorem readsBack_string : ReadsBack Text.SpellsString Text.quote readString id where
  blanks cs := by simp only [readString, skipBlanks_skipBlanks]
  written := Text.spellsString_quote
  opens {s _} spelled := .inr ⟨opens_of_spellsString spelled, opens_of_spellsString (Text.spellsString_quote s)⟩
  reads {s _} spelled rest _ := by
    obtain ⟨inner, spelled, rfl⟩ := spelled
    have unquoted := Text.unquote_of_spells spelled rest
    rw [readString, List.cons_append, skipBlanks_cons (by decide), List.append_assoc]
    simp only [List.cons_append, List.nil_append, unquoted]
    rfl
  write_norm _ := rfl

theorem opens_write (n : Int) : Opens (Decimal.write n) := opens_of_isNumber (Number.isNumber_write n)

section Integers

variable {lo hi : Int}

/-- An integer that the bounds do not hold is refused, and the flaw tells whether a word would hold it. -/
theorem readWord_write {n : Int} (small : n.natAbs < 10 ^ 300) {rest : List Char} (h : Delimited rest) :
    readWord lo hi (Decimal.write n ++ rest) =
      match (Bounded.ofInt? n : Option (Bounded lo hi)) with
      | some n => .ok (n, rest)
      | none => .error (if isWord n then .outOfRange else .wrongType) := by
  have scanned := Number.scan_write n h
  have finite := Number.not_isHuge_ofInt n small
  obtain ⟨c, cs, written, head⟩ := Number.head_of_isNumber (Number.isNumber_write n)
  rw [readWord, (opens_write n).starts.skipBlanks_append]
  simp only [scanned, finite, Number.integer?_ofInt]
  rw [written, List.cons_append, List.head?_cons]
  exact if_pos head

theorem readWide_write (n : Bounded lo hi) {rest : List Char} (h : Delimited rest) :
    readWide lo hi (Decimal.write n.val ++ rest) = .ok (n, rest) := by
  have above := n.lo_le
  have allowed : ¬(decide (n.val < 0) = true ∧ 0 ≤ lo) := by
    rw [decide_eq_true_eq]
    omega
  have value : (if decide (n.val < 0) = true then -(n.val.natAbs : Int) else n.val.natAbs) = n.val := by
    split <;> rename_i sign <;> rw [decide_eq_true_eq] at sign <;> omega
  have whole := Number.wholePart_append (Number.isWhole_toDigits n.val.natAbs) fun c next => (h c next).1
  rw [readWide, (opens_write n.val).starts.skipBlanks_append, Number.sign_write]
  simp only [if_neg allowed, whole, Decimal.natOf_toDigits, value, Bounded.ofInt?_val]

theorem isWord_iff {n : Int} : isWord n = true ↔ -0x8000000000000000 ≤ n ∧ n ≤ 0xffffffffffffffff := by
  simp only [isWord, Bool.and_eq_true, decide_eq_true_eq]

theorem natAbs_lt_of_isWord {n : Int} (word : isWord n = true) : n.natAbs < 10 ^ 300 := by
  obtain ⟨above, below⟩ := isWord_iff.mp word
  have short : n.natAbs < 2 ^ 64 := by omega
  exact Nat.lt_trans short (by decide +kernel)

theorem isWord_val (n : Bounded lo hi) (words : isWord lo = true ∧ isWord hi = true) : isWord n.val = true := by
  have above := n.lo_le
  have below := n.le_hi
  rw [isWord_iff, isWord_iff] at words
  rw [isWord_iff]
  omega

theorem readInt_write (n : Bounded lo hi) {rest : List Char} (h : Delimited rest) :
    readInt lo hi (Decimal.write n.val ++ rest) = .ok (n, rest) := by
  rw [readInt]
  split
  · rename_i words
    rw [readWord_write (natAbs_lt_of_isWord (isWord_val n words)) h, Bounded.ofInt?_val]
  · exact readWide_write n h

theorem passesBlanks_int (lo hi : Int) : PassesBlanks (readInt lo hi) := by
  intro cs
  unfold readInt
  split
  · simp only [readWord, skipBlanks_skipBlanks]
  · simp only [readWide, skipBlanks_skipBlanks]

theorem readsBack_int :
    ReadsBack (fun n : Bounded lo hi => (· = Decimal.write n.val)) (fun n => Decimal.write n.val) (readInt lo hi)
      id where
  blanks := passesBlanks_int lo hi
  written _ := rfl
  opens := by
    rintro n _ rfl
    exact .inr ⟨opens_write n.val, opens_write n.val⟩
  reads := by
    rintro n _ rfl rest delimited
    exact readInt_write n delimited
  write_norm _ := rfl

end Integers

section Options

variable {spells : α → List Char → Prop} {write : α → List Char} {read : Reader α} {norm : α → α}

def SpellsOption (spells : α → List Char → Prop) : Option α → List Char → Prop
  | none, text => text = writeNull
  | some x, text => spells x text

theorem readOption_of_opens {cs : List Char} (h : Opens cs) :
    readOption read cs =
      match read cs with
      | .ok (x, rest) => .ok (some x, rest)
      | .error flaw => .error flaw := by
  rw [readOption, h.starts.skipBlanks_eq]
  obtain ⟨c, cs, rfl, _, _, notNull⟩ := h
  split
  · rename_i same
    exact absurd (List.cons.inj same).1 notNull
  · rfl

theorem opens_option (h : ReadsBack spells write read norm) {x : Option α} {text : List Char}
    (spelled : SpellsOption spells x text) :
    text = writeNull ∧ writeOption write x = writeNull ∨ Opens text ∧ Opens (writeOption write x) := by
  cases x with
  | none => exact .inl ⟨spelled, rfl⟩
  | some x => exact h.opens spelled

theorem not_opens_null : ¬Opens writeNull := by
  rintro ⟨c, cs, same, _, _, notNull⟩
  exact notNull (List.cons.inj same).1.symm

/-- A value that is written as `null` comes back as `none`, and `none` is written as `null` again. -/
theorem readsBack_option (h : ReadsBack spells write read norm) :
    ReadsBack (SpellsOption spells) (writeOption write) (readOption read)
      (fun x => if writeOption write x = writeNull then none else x.map norm) where
  blanks cs := by simp only [readOption, skipBlanks_skipBlanks]
  written x := by
    cases x with
    | none => rfl
    | some x => exact h.written x
  opens := opens_option h
  reads {x text} spelled rest delimited := by
    rcases opens_option h spelled with ⟨rfl, null⟩ | ⟨opens, value⟩
    · rw [if_pos null]
      rfl
    · have notNull : writeOption write x ≠ writeNull := fun null => not_opens_null (null ▸ value)
      rw [if_neg notNull]
      cases x with
      | none => exact absurd rfl notNull
      | some x => rw [readOption_of_opens (opens.append rest), h.reads spelled rest delimited, Option.map_some]
  write_norm x := by
    split
    · rename_i null
      exact null.symm
    · cases x with
      | none => rfl
      | some x => exact h.write_norm x

end Options

section Lists

variable {spells : α → List Char → Prop} {write : α → List Char} {read : Reader α} {norm : α → α}

def SpellsList (spells : α → List Char → Prop) (xs : List α) (text : List Char) : Prop :=
  ∃ texts, List.Forall₂ spells xs texts ∧ Enclosed '[' ']' texts text

theorem readElements_append (passes : PassesBlanks read) (fuel : Nat) (done : List α) {blanks : List Char}
    (blank : Blank blanks) (cs : List Char) :
    readElements read fuel done (blanks ++ cs) = readElements read fuel done cs := by
  cases fuel with
  | zero => rfl
  | succ fuel => rw [readElements, readElements, passes.read_append blank]

theorem readElements_of_continues (passes : PassesBlanks read) {values : List (List Char)} {text : List Char}
    (more : Continues values text) {value : List Char} {x : α} {xs : List α} (first : Reads read value x)
    (others : List.Forall₂ (Reads read) values xs) (done : List α) (fuel : Nat) (enough : values.length < fuel)
    (rest : List Char) :
    readElements read fuel done (value ++ (text ++ ']' :: rest)) = .ok (done.reverse ++ x :: xs, rest) := by
  induction more generalizing value x xs done fuel with
  | nil blank =>
    obtain ⟨fuel, rfl⟩ := Nat.exists_eq_add_one_of_ne_zero (Nat.ne_zero_of_lt enough)
    cases others
    rw [readElements, first _ (delimited_append blank (delimited_bracket rest))]
    simp [skipBlanks_append blank, skipBlanks_cons (show isBlank ']' = false by decide)]
  | @cons before behind next text values blankBefore blankBehind more ih =>
    obtain ⟨fuel, rfl⟩ := Nat.exists_eq_add_one_of_ne_zero (Nat.ne_zero_of_lt enough)
    cases others with
    | @cons _ y _ ys second others =>
      have assoc : before ++ ',' :: (behind ++ (next ++ text)) ++ ']' :: rest =
          before ++ ',' :: (behind ++ (next ++ (text ++ ']' :: rest))) := by simp
      have later := ih second others (x :: done) fuel (Nat.lt_of_succ_lt_succ enough)
      rw [assoc, readElements, first _ (delimited_append blankBefore (delimited_comma _))]
      simp only [skipBlanks_append blankBefore, skipBlanks_cons (show isBlank ',' = false by decide)]
      rw [readElements_append passes fuel (x :: done) blankBehind, later, List.reverse_cons, List.append_assoc]
      rfl

theorem reads_list (passes : PassesBlanks read) {values : List (List Char)} {text : List Char} {xs : List α}
    (enclosed : Enclosed '[' ']' values text) (starts : ∀ value ∈ values, Starts value)
    (reads : List.Forall₂ (Reads read) values xs) : Reads (readList read) text xs := by
  intro rest _
  cases enclosed with
  | empty blank =>
    cases reads
    have assoc (blanks : List Char) : '[' :: (blanks ++ [']']) ++ rest = '[' :: (blanks ++ ']' :: rest) := by simp
    rw [assoc, readList, skipBlanks_cons (by decide)]
    simp only [skipBlanks_append blank, skipBlanks_cons (show isBlank ']' = false by decide)]
  | @filled blanks value text values blank more =>
    cases reads with
    | @cons _ x _ xs first others =>
      have assoc : '[' :: (blanks ++ (value ++ (text ++ [']']))) ++ rest =
          '[' :: (blanks ++ (value ++ (text ++ ']' :: rest))) := by simp
      have enough : values.length < (value ++ (text ++ ']' :: rest)).length := by
        have short := more.length_le
        simp only [List.length_append, List.length_cons]
        omega
      have elements := readElements_of_continues passes more first others [] _ enough rest
      obtain ⟨c, cs, rfl, notBlank, notEnd⟩ := starts value List.mem_cons_self
      rw [assoc, readList, skipBlanks_cons (by decide)]
      rw [List.cons_append] at elements ⊢
      simp only [skipBlanks_append blank, skipBlanks_cons notBlank]
      split
      · rename_i same
        exact absurd (List.cons.inj same).1 notEnd
      · exact elements

theorem readsBack_list (h : ReadsBack spells write read norm) :
    ReadsBack (SpellsList spells) (writeList write) (readList read) (List.map norm) where
  blanks cs := by simp only [readList, skipBlanks_skipBlanks]
  written xs := by
    refine ⟨xs.map write, ?_, enclosed_intercalate '[' ']' (xs.map write)⟩
    exact List.forall₂_map_right_iff.mpr (List.forall₂_same.mpr fun x _ => h.written x)
  opens {xs text} spelled := by
    obtain ⟨texts, _, enclosed⟩ := spelled
    exact .inr ⟨enclosed.opens (by decide), ⟨'[', _, rfl, by decide⟩⟩
  reads {xs text} spelled := by
    obtain ⟨texts, spelled, enclosed⟩ := spelled
    refine reads_list h.blanks enclosed ?_ ?_
    · intro text member
      obtain ⟨x, _, spells⟩ := exists_of_mem_right spelled member
      exact h.starts spells
    · have flipped : List.Forall₂ (fun text x => spells x text) texts xs := spelled.flip
      exact List.forall₂_map_right_iff.mpr (flipped.imp fun _ _ => h.reads)
  write_norm xs := by
    have elements : (xs.map norm).map write = xs.map write := by
      rw [List.map_map]
      exact List.map_congr_left fun x _ => h.write_norm x
    rw [writeList, writeList, elements]

end Lists

end CountedStack.Json
