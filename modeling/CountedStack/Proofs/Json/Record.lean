import CountedStack.Item
import CountedStack.Proofs.Json.Skip
import CountedStack.Proofs.Json.Value

/-!
A record reads back from every spelling: an object, its fields in any order among members that are no fields, or the
list of its fields. Of a spelling of some of its fields, what the record makes of these is read.
-/

namespace CountedStack.Json

variable {ρ β τ : Type}

/-- The key of a member and the text of its value. -/
abbrev Member := String × List Char

def SpellsMember (m : Member) (text : List Char) : Prop :=
  ∃ key, Text.SpellsString m.1 key ∧ IsMember key m.2 text

/-- The fields of a record, each with a text of its value, as an object or as a list. -/
inductive SpellsRecord (fields : List Member) : List Char → Prop where
  | object {members : List Member} {texts : List (List Char)} {text : List Char} :
      (members.filter fun m => m.1 ∈ fields.map Prod.fst).Perm fields →
      (∀ m ∈ members, m.1 ∉ fields.map Prod.fst → IsValue m.2) →
      List.Forall₂ SpellsMember members texts → Enclosed '{' '}' texts text → SpellsRecord fields text
  | list {text : List Char} : Enclosed '[' ']' (fields.map Prod.snd) text → SpellsRecord fields text

/-- Some of the fields of a record as an object, or its first ones as a list. -/
inductive SpellsPart (fields given : List Member) : List Char → Prop where
  | object {members : List Member} {texts : List (List Char)} {text : List Char} :
      given.Sublist fields → (members.filter fun m => m.1 ∈ fields.map Prod.fst).Perm given →
      (∀ m ∈ members, m.1 ∉ fields.map Prod.fst → IsValue m.2) →
      List.Forall₂ SpellsMember members texts → Enclosed '{' '}' texts text → SpellsPart fields given text
  | list {text : List Char} : given <+: fields → Enclosed '[' ']' (given.map Prod.snd) text →
      SpellsPart fields given text

theorem SpellsRecord.part {fields : List Member} {text : List Char} (h : SpellsRecord fields text) :
    SpellsPart fields fields text := by
  cases h with
  | object known others spelled enclosed => exact .object (.refl fields) known others spelled enclosed
  | list enclosed => exact .list (List.prefix_refl fields) enclosed

theorem SpellsRecord.opens {fields : List Member} {text : List Char} (h : SpellsRecord fields text) :
    Opens text := by
  cases h with
  | object _ _ _ enclosed => exact enclosed.opens (by decide)
  | list enclosed => exact enclosed.opens (by decide)

theorem SpellsMember.head {m : Member} {text : List Char} (h : SpellsMember m text) :
    ∃ cs, text = '"' :: cs := by
  obtain ⟨_, ⟨inner, _, rfl⟩, _, _, _, _, rfl⟩ := h
  exact ⟨_, rfl⟩

theorem spellsMember_writeMember (m : Member) : SpellsMember m (writeMember m.1 m.2) :=
  ⟨Text.quote m.1, Text.spellsString_quote m.1, [], [], blank_nil, blank_nil, rfl⟩

theorem spellsRecord_writeObject (fields : List Member) : SpellsRecord fields (writeObject fields) := by
  have known : ∀ m ∈ fields, m.1 ∈ fields.map Prod.fst := fun m member => List.mem_map_of_mem member
  have spelled : List.Forall₂ SpellsMember fields (fields.map fun m => writeMember m.1 m.2) :=
    List.forall₂_map_right_iff.mpr (List.forall₂_same.mpr fun m _ => spellsMember_writeMember m)
  refine .object ?_ ?_ spelled (enclosed_intercalate '{' '}' _)
  · rw [List.filter_eq_self.mpr fun m member => decide_eq_true (known m member)]
  · exact fun m member unknown => absurd (known m member) unknown

/-- A field that adds the value with the given text to a draft. -/
structure Field.Fills (draft : List String → ρ) (field : Field ρ) (member : Member) : Prop where
  name : field.name = member.1
  starts : Starts member.2
  isSet : ∀ seen, field.isSet (draft seen) = true ↔ member.1 ∈ seen
  blanks : ∀ seen, PassesBlanks (field.read (draft seen))
  reads : ∀ seen, Reads (field.read (draft seen)) member.2 (draft (member.1 :: seen))

theorem Field.fills_of {spells : τ → List Char → Prop} {write : τ → List Char} {read : Reader τ} {norm : τ → τ}
    (h : ReadsBack spells write read norm) {x : τ} {value : List Char} (spelled : spells x value)
    {draft : List String → ρ} {name : String} {get : ρ → Option τ} {set : ρ → τ → ρ}
    (isSet : ∀ seen, (get (draft seen)).isSome = true ↔ name ∈ seen)
    (added : ∀ seen, set (draft seen) (norm x) = draft (name :: seen)) :
    (Field.of name get set read).Fills draft (name, value) where
  name := rfl
  starts := h.starts spelled
  isSet := isSet
  blanks seen cs := by simp only [Field.of, h.blanks cs]
  reads seen rest delimited := by simp only [Field.of, h.reads spelled rest delimited, added]

theorem Field.read_of_error {name : String} {get : ρ → Option τ} {set : ρ → τ → ρ} {read : Reader τ}
    {cs : List Char} {flaw : Flaw} (refused : read cs = .error flaw) (draft : ρ) :
    (Field.of name get set read).read draft cs = .error flaw := by
  simp only [Field.of, refused]

namespace Record

theorem passesBlanks (record : Record ρ β) : PassesBlanks record.read := by
  intro cs
  simp only [read, skipBlanks_skipBlanks]

/-- `draft seen` is the draft with the fields in `seen`, of the record `x` whose fields have the given texts. -/
structure Fills (record : Record ρ β) (draft : List String → ρ) (fields : List Member) (x : β) :
    Prop where
  distinct : (fields.map Prod.fst).Nodup
  empty : draft [] = record.empty
  each : List.Forall₂ (Field.Fills draft) record.fields fields
  build : ∀ seen, (∀ name ∈ fields.map Prod.fst, name ∈ seen) → record.build (draft seen) = some x

section Fields

variable {draft : List String → ρ} {known : List (Field ρ)} {fields : List Member}

theorem find?_of_mem (each : List.Forall₂ (Field.Fills draft) known fields) (distinct : (fields.map Prod.fst).Nodup)
    {m : Member} (member : m ∈ fields) :
    ∃ field, known.find? (·.name = m.1) = some field ∧ field.Fills draft m := by
  induction each with
  | nil => cases member
  | @cons field first known fields fills _ ih =>
    rw [List.map_cons, List.nodup_cons] at distinct
    rcases List.mem_cons.mp member with rfl | later
    · exact ⟨field, List.find?_cons_of_pos (decide_eq_true fills.name), fills⟩
    · obtain ⟨found, found?, fills'⟩ := ih distinct.2 later
      have other : field.name ≠ m.1 := by
        rw [fills.name]
        exact fun same => distinct.1 (same ▸ List.mem_map_of_mem later)
      exact ⟨found, (List.find?_cons_of_neg (by simpa using other)).trans found?, fills'⟩

theorem find?_of_not_mem (each : List.Forall₂ (Field.Fills draft) known fields) {key : String}
    (unknown : key ∉ fields.map Prod.fst) : known.find? (·.name = key) = none := by
  induction each with
  | nil => rfl
  | @cons field first known fields fills _ ih =>
    rw [List.map_cons, List.mem_cons, not_or] at unknown
    have other : field.name ≠ key := by
      rw [fills.name]
      exact Ne.symm unknown.1
    exact (List.find?_cons_of_neg (by simpa using other)).trans (ih unknown.2)

theorem readFields_right {blanks : List Char} (blank : Blank blanks) (more : List (Field ρ)) (first : Bool) (x : ρ)
    (rest : List Char) : readFields more first x (blanks ++ ']' :: rest) = .ok (x, rest) := by
  cases more <;> rw [readFields, skipBlanks_append blank, skipBlanks_cons (by decide)] <;> rfl

section Steps

variable (field : Field ρ) (others : List (Field ρ)) (x : ρ) {blanks : List Char} (blank : Blank blanks)

include blank

theorem readFields_start {cs : List Char} (starts : Starts cs) :
    readFields (field :: others) true x (blanks ++ cs) =
      match field.read x cs with
      | .ok (x, rest) => readFields others false x rest
      | .error flaw => .error flaw := by
  obtain ⟨c, cs, rfl, notBlank, notEnd⟩ := starts
  rw [readFields, skipBlanks_append blank, skipBlanks_cons notBlank]
  split
  · rename_i same
    exact absurd (List.cons.inj same).1 notEnd
  · rename_i same
    rw [← same]
    refine (if_pos rfl).trans ?_
    cases field.read x (c :: cs) <;> rfl
  · contradiction

theorem readFields_comma (cs : List Char) :
    readFields (field :: others) false x (blanks ++ ',' :: cs) =
      match field.read x cs with
      | .ok (x, rest) => readFields others false x rest
      | .error flaw => .error flaw := by
  rw [readFields, skipBlanks_append blank, skipBlanks_cons (by decide)]
  split
  · rename_i same
    exact absurd (List.cons.inj same).1 (by decide)
  · rename_i same
    obtain ⟨rfl, rfl⟩ := List.cons.inj same
    refine (if_neg Bool.false_ne_true).trans ((if_pos rfl).trans ?_)
    cases field.read x cs <;> rfl
  · contradiction

end Steps

theorem readFields_of_continues (each : List.Forall₂ (Field.Fills draft) known fields) (others : List (Field ρ))
    {tail : List Char} (more : Continues (fields.map Prod.snd) tail) (seen : List String) (rest : List Char) :
    readFields (known ++ others) false (draft seen) (tail ++ ']' :: rest) =
      .ok (draft ((fields.map Prod.fst).reverse ++ seen), rest) := by
  induction each generalizing tail seen with
  | nil =>
    cases more with
    | nil blank => exact readFields_right blank others false _ rest
  | @cons field m known fields fills _ ih =>
    cases more with
    | @cons before behind _ tail _ blankBefore blankBehind more =>
      have later := ih more (m.1 :: seen)
      have assoc : before ++ ',' :: (behind ++ (m.2 ++ tail)) ++ ']' :: rest =
          before ++ ',' :: (behind ++ (m.2 ++ (tail ++ ']' :: rest))) := by simp
      have order : ((m :: fields).map Prod.fst).reverse ++ seen = (fields.map Prod.fst).reverse ++ m.1 :: seen := by
        simp
      have taken := fills.reads seen _ (more.delimited (delimited_bracket rest))
      rw [assoc, order, List.cons_append, readFields_comma field _ _ blankBefore,
        (fills.blanks seen).read_append blankBehind, taken]
      exact later

theorem readFields_of_enclosed (each : List.Forall₂ (Field.Fills draft) known fields) (others : List (Field ρ))
    {text : List Char} (enclosed : Enclosed '[' ']' (fields.map Prod.snd) text) (rest : List Char) :
    ∃ cs, text ++ rest = '[' :: cs ∧
      readFields (known ++ others) true (draft []) cs = .ok (draft (fields.map Prod.fst).reverse, rest) := by
  cases each with
  | nil =>
    cases enclosed with
    | @empty blanks blank => exact ⟨blanks ++ ']' :: rest, by simp, readFields_right blank others true _ rest⟩
  | @cons field m known fields fills each =>
    cases enclosed with
    | @filled blanks _ tail _ blank more =>
      have later := readFields_of_continues each others more [m.1] rest
      have order : ((m :: fields).map Prod.fst).reverse = (fields.map Prod.fst).reverse ++ [m.1] := by simp
      have taken := fills.reads [] _ (more.delimited (delimited_bracket rest))
      refine ⟨blanks ++ (m.2 ++ (tail ++ ']' :: rest)), by simp, ?_⟩
      rw [order, List.cons_append, readFields_start field _ _ blank (fills.starts.append _), taken]
      exact later

end Fields

/-- A member is read by its key, and the value behind the colon is left to its field or skipped. -/
theorem readMember_of_spells (record : Record ρ β) (draft : ρ) {m : Member} {text : List Char}
    (spelled : SpellsMember m text) :
    ∃ behind, Blank behind ∧
      (∀ field, record.fields.find? (·.name = m.1) = some field → field.isSet draft = false → ∀ rest,
        record.readMember draft (text ++ rest) = field.read draft (behind ++ (m.2 ++ rest))) ∧
      (record.fields.find? (·.name = m.1) = none → ∀ rest rest',
        skipValue (behind ++ (m.2 ++ rest)) = some rest' →
          record.readMember draft (text ++ rest) = .ok (draft, rest')) := by
  obtain ⟨_, ⟨inner, key, rfl⟩, before, behind, blankBefore, blankBehind, rfl⟩ := spelled
  have assoc (rest : List Char) : '"' :: (inner ++ ['"']) ++ (before ++ ':' :: (behind ++ m.2)) ++ rest =
      '"' :: (inner ++ '"' :: (before ++ ':' :: (behind ++ (m.2 ++ rest)))) := by simp
  have unquoted (rest : List Char) : Text.unquote (inner ++ '"' :: (before ++ ':' :: (behind ++ (m.2 ++ rest)))) =
      some (m.1, before ++ ':' :: (behind ++ (m.2 ++ rest))) := Text.unquote_of_spells key _
  refine ⟨behind, blankBehind, ?_, ?_⟩
  · intro field found unset rest
    rw [assoc, readMember]
    simp only [unquoted, found, unset, skipColon_append blankBefore]
    exact if_neg Bool.false_ne_true
  · intro unknown rest rest' skipped
    rw [assoc, readMember]
    simp only [unquoted, unknown, skipColon_append blankBefore, Option.bind_some, skipped]

/-- The fields seen before and after some members, each field for the first time. -/
inductive Sees (fields : List Member) : List String → List Member → List String → Prop where
  | nil (seen : List String) : Sees fields seen [] seen
  | field {m : Member} {members : List Member} {seen seen' : List String} :
      m ∈ fields → m.1 ∉ seen → Sees fields (m.1 :: seen) members seen' → Sees fields seen (m :: members) seen'
  | other {m : Member} {members : List Member} {seen seen' : List String} :
      m.1 ∉ fields.map Prod.fst → IsValue m.2 → Sees fields seen members seen' → Sees fields seen (m :: members) seen'

theorem Sees.mem_iff {fields members : List Member} {seen seen' : List String} (h : Sees fields seen members seen')
    {name : String} (field : name ∈ fields.map Prod.fst) :
    name ∈ seen' ↔ name ∈ seen ∨ name ∈ members.map Prod.fst := by
  induction h with
  | nil seen => simp
  | field _ _ _ ih =>
    rw [ih, List.map_cons, List.mem_cons, List.mem_cons]
    exact or_assoc.trans or_left_comm
  | @other m _ _ _ unknown _ _ ih =>
    have different : name ≠ m.1 := fun same => unknown (same ▸ field)
    rw [ih, List.map_cons, List.mem_cons, or_iff_right different]

theorem exists_sees {fields members : List Member} {seen : List String}
    (known : ∀ m ∈ members, m.1 ∈ fields.map Prod.fst → m ∈ fields ∧ m.1 ∉ seen)
    (others : ∀ m ∈ members, m.1 ∉ fields.map Prod.fst → IsValue m.2)
    (once : ((members.filter fun m => m.1 ∈ fields.map Prod.fst).map Prod.fst).Nodup) :
    ∃ seen', Sees fields seen members seen' := by
  -- `seen` grows along the members, so that a field is new for those behind it only as it comes once.
  induction members generalizing seen with
  | nil => exact ⟨seen, .nil seen⟩
  | cons m members ih =>
    obtain ⟨first, later⟩ := List.forall_mem_cons.mp known
    obtain ⟨value, values⟩ := List.forall_mem_cons.mp others
    by_cases field : m.1 ∈ fields.map Prod.fst
    · obtain ⟨member, unseen⟩ := first field
      rw [List.filter_cons, if_pos (decide_eq_true field), List.map_cons, List.nodup_cons] at once
      have fresh : ∀ m' ∈ members, m'.1 ∈ fields.map Prod.fst → m' ∈ fields ∧ m'.1 ∉ m.1 :: seen := by
        intro m' member' field'
        obtain ⟨own, unseen'⟩ := later m' member' field'
        refine ⟨own, List.not_mem_cons_of_ne_of_not_mem ?_ unseen'⟩
        intro same
        have again : m'.1 ∈ (members.filter fun m => m.1 ∈ fields.map Prod.fst).map Prod.fst :=
          List.mem_map_of_mem (List.mem_filter.mpr ⟨member', decide_eq_true field'⟩)
        exact once.1 (same ▸ again)
      obtain ⟨seen', sees⟩ := ih fresh values once.2
      exact ⟨seen', .field member unseen sees⟩
    · rw [List.filter_cons, if_neg (by simpa using field)] at once
      obtain ⟨seen', sees⟩ := ih later values once
      exact ⟨seen', .other field (value field) sees⟩

namespace Fills

variable {record : Record ρ β} {draft : List String → ρ} {fields : List Member} {x : β}
  (h : record.Fills draft fields x)

include h

theorem readMember_field {m : Member} (member : m ∈ fields) {seen : List String} (unseen : m.1 ∉ seen)
    {text : List Char} (spelled : SpellsMember m text) :
    Reads (record.readMember (draft seen)) text (draft (m.1 :: seen)) := by
  obtain ⟨behind, blank, read, _⟩ := readMember_of_spells record (draft seen) spelled
  obtain ⟨field, found, fills⟩ := find?_of_mem h.each h.distinct member
  have unset : field.isSet (draft seen) = false := by
    rw [← Bool.not_eq_true, fills.isSet]
    exact unseen
  intro rest delimited
  rw [read field found unset]
  exact ((fills.blanks seen).read_append blank _).trans (fills.reads seen rest delimited)

theorem readMember_other {m : Member} (unknown : m.1 ∉ fields.map Prod.fst) (isValue : IsValue m.2)
    (seen : List String) {text : List Char} (spelled : SpellsMember m text) :
    Reads (record.readMember (draft seen)) text (draft seen) := by
  obtain ⟨behind, blank, _, read⟩ := readMember_of_spells record (draft seen) spelled
  intro rest delimited
  exact read (find?_of_not_mem h.each unknown) rest rest (skipValue_of_isValue isValue blank delimited)

theorem readMember_of_sees {m : Member} {members : List Member} {seen seen'' : List String}
    (sees : Sees fields seen (m :: members) seen'') {text : List Char} (spelled : SpellsMember m text) :
    ∃ seen', Reads (record.readMember (draft seen)) text (draft seen') ∧ Sees fields seen' members seen'' := by
  cases sees with
  | field member unseen more => exact ⟨_, h.readMember_field member unseen spelled, more⟩
  | other unknown isValue more => exact ⟨_, h.readMember_other unknown isValue seen spelled, more⟩

theorem readMembers_of_continues {texts : List (List Char)} {tail : List Char} (more : Continues texts tail)
    {m : Member} {text : List Char} (first : SpellsMember m text) {members : List Member}
    (others : List.Forall₂ SpellsMember members texts) {seen seen' : List String}
    (sees : Sees fields seen (m :: members) seen') (fuel : Nat) (enough : texts.length < fuel) (rest : List Char) :
    record.readMembers fuel (draft seen) (text ++ (tail ++ '}' :: rest)) = .ok (draft seen', rest) := by
  induction more generalizing m text members seen fuel with
  | nil blank =>
    obtain ⟨fuel, rfl⟩ := Nat.exists_eq_add_one_of_ne_zero (Nat.ne_zero_of_lt enough)
    obtain ⟨_, read, last⟩ := h.readMember_of_sees sees first
    cases others
    cases last
    rw [readMembers, read _ (delimited_append blank (delimited_brace rest))]
    simp [skipBlanks_append blank, skipBlanks_cons (show isBlank '}' = false by decide)]
  | @cons before behind next tail texts blankBefore blankBehind more ih =>
    obtain ⟨fuel, rfl⟩ := Nat.exists_eq_add_one_of_ne_zero (Nat.ne_zero_of_lt enough)
    obtain ⟨_, read, later⟩ := h.readMember_of_sees sees first
    cases others with
    | cons second others =>
      have assoc : before ++ ',' :: (behind ++ (next ++ tail)) ++ '}' :: rest =
          before ++ ',' :: (behind ++ (next ++ (tail ++ '}' :: rest))) := by simp
      have starts : Starts next := by
        obtain ⟨cs, rfl⟩ := second.head
        exact ⟨'"', cs, rfl, by decide⟩
      rw [assoc, readMembers, read _ (delimited_append blankBefore (delimited_comma _))]
      simp only [skipBlanks_append blankBefore, skipBlanks_cons (show isBlank ',' = false by decide)]
      rw [skipBlanks_append blankBehind, starts.skipBlanks_append]
      exact ih second others later fuel (Nat.lt_of_succ_lt_succ enough)

theorem readDraft_of_enclosed {members : List Member} {texts : List (List Char)} {text : List Char}
    (spelled : List.Forall₂ SpellsMember members texts) (enclosed : Enclosed '{' '}' texts text) {seen : List String}
    (sees : Sees fields [] members seen) (rest : List Char) :
    ∃ cs, text ++ rest = '{' :: cs ∧ record.readDraft cs = .ok (draft seen, rest) := by
  cases enclosed with
  | @empty blanks blank =>
    cases spelled
    cases sees
    refine ⟨blanks ++ '}' :: rest, by simp, ?_⟩
    rw [readDraft, skipBlanks_append blank, skipBlanks_cons (by decide), h.empty]
    rfl
  | @filled blanks first tail texts blank more =>
    cases spelled with
    | cons second others =>
      -- A comma stands before each further member, so there are fewer of them than characters.
      have enough : texts.length < (first ++ (tail ++ '}' :: rest)).length := by
        have short := more.length_le
        simp only [List.length_append, List.length_cons]
        omega
      have filled := h.readMembers_of_continues more second others sees _ enough rest
      refine ⟨blanks ++ (first ++ (tail ++ '}' :: rest)), by simp, ?_⟩
      obtain ⟨cs, rfl⟩ := second.head
      rw [List.cons_append] at filled ⊢
      rw [readDraft, skipBlanks_append blank, skipBlanks_cons (by decide), ← h.empty]
      exact filled

theorem read_of_part {given : List Member} {text : List Char} (spelled : SpellsPart fields given text) {y : β}
    (built : ∀ seen, (∀ name ∈ fields.map Prod.fst, name ∈ seen ↔ name ∈ given.map Prod.fst) →
      record.build (draft seen) = some y) : Reads record.read text y := by
  intro rest _
  cases spelled with
  | @object members texts _ part known others spelled enclosed =>
    have own : ∀ m ∈ members, m.1 ∈ fields.map Prod.fst → m ∈ given := by
      intro m member field
      exact known.mem_iff.mp (List.mem_filter.mpr ⟨member, decide_eq_true field⟩)
    have once : ((members.filter fun m => m.1 ∈ fields.map Prod.fst).map Prod.fst).Nodup :=
      (known.map Prod.fst).nodup_iff.mpr (h.distinct.sublist (part.map Prod.fst))
    obtain ⟨seen, sees⟩ := exists_sees
      (fun m member field => ⟨part.subset (own m member field), List.not_mem_nil⟩) others once
    obtain ⟨cs, written, drafted⟩ := h.readDraft_of_enclosed spelled enclosed sees rest
    have come : ∀ name ∈ fields.map Prod.fst, name ∈ seen ↔ name ∈ given.map Prod.fst := by
      intro name named
      rw [sees.mem_iff named, or_iff_right List.not_mem_nil]
      constructor
      · intro came
        obtain ⟨m, member, rfl⟩ := List.mem_map.mp came
        exact List.mem_map_of_mem (own m member named)
      · intro due
        obtain ⟨m, member, rfl⟩ := List.mem_map.mp due
        exact List.mem_map_of_mem (List.mem_filter.mp (known.mem_iff.mpr member)).1
    rw [written, read, skipBlanks_cons (by decide)]
    simp only [readObject, drafted, built seen come]
  | list front enclosed =>
    obtain ⟨later, rfl⟩ := front
    have each := List.forall₂_take_append _ _ _ h.each
    obtain ⟨cs, written, filled⟩ := readFields_of_enclosed each (record.fields.drop given.length) enclosed rest
    have come : ∀ name ∈ (given ++ later).map Prod.fst,
        name ∈ (given.map Prod.fst).reverse ↔ name ∈ given.map Prod.fst := fun _ _ => List.mem_reverse
    rw [h.empty, List.take_append_drop] at filled
    rw [written, read, skipBlanks_cons (by decide)]
    simp only [readListed, filled, built _ come]

theorem reads {text : List Char} (spelled : SpellsRecord fields text) : Reads record.read text x :=
  h.read_of_part spelled.part fun seen come => h.build seen fun name named => (come name named).mpr named

end Fills

theorem fills_of_single (make : τ → β) {record : Record (Option τ) β} {name : String} {read : Reader τ}
    (fields : record.fields = [.of name id (fun _ x => some x) read]) (empty : record.empty = none)
    (build : record.build = Option.map make) {spells : τ → List Char → Prop} {write : τ → List Char} {norm : τ → τ}
    (h : ReadsBack spells write read norm) {x : τ} {value : List Char} (spelled : spells x value) :
    record.Fills (fun seen => if name ∈ seen then some (norm x) else none) [(name, value)] (make (norm x)) where
  distinct := by simp
  empty := empty.symm
  each := by
    rw [fields]
    refine .cons (Field.fills_of h spelled ?_ ?_) .nil
    · intro seen
      split <;> simp_all
    · intro seen
      exact (if_pos List.mem_cons_self).symm
  build seen all := by
    rw [build, if_pos (all name List.mem_cons_self)]
    rfl

end Record

end CountedStack.Json
