import CountedStack.Proofs.Json.FirstFlaw

/-!
`Within inner outer lead holds` says of the values behind the text `lead` that they are left to their own reader:
the flaw of such a value is the flaw of the whole, and whatever is read as the whole holds the value as it was read.
-/

namespace CountedStack.Json

variable {ρ β σ τ : Type}

/-- The outcome goes by the value in front of a text: its flaw, or else nothing but what holds the value. -/
structure GoesBy (inner : Reader τ) (cs : List Char) (holds : β → τ → Prop) (outcome : Except Flaw (β × List Char)) :
    Prop where
  refused : ∀ {flaw}, inner cs = .error flaw → outcome = .error flaw
  taken : ∀ {y rest}, inner cs = .ok (y, rest) → ∀ {x rest'}, outcome = .ok (x, rest') → holds x y

structure Within (inner : Reader τ) (outer : Reader β) (lead : List Char) (holds : β → τ → Prop) : Prop where
  opens : ∀ {cs}, Opens cs → Opens (lead ++ cs)
  goes : ∀ {cs}, Opens cs → GoesBy inner cs holds (outer (lead ++ cs))

namespace Within

variable {inner : Reader τ} {outer : Reader β} {lead : List Char} {holds : β → τ → Prop}
  (h : Within inner outer lead holds)

theorem refl (read : Reader τ) : Within read read [] Eq where
  opens := id
  goes {cs} _ := by
    refine ⟨id, ?_⟩
    intro y rest taken x rest' whole
    exact (Prod.mk.inj (Except.ok.inj (whole.symm.trans taken))).1

include h

theorem exists_taken {cs : List Char} (opens : Opens cs) {x : β} {rest : List Char}
    (whole : outer (lead ++ cs) = .ok (x, rest)) : ∃ y rest', inner cs = .ok (y, rest') ∧ holds x y := by
  have goes := h.goes opens
  cases inside : inner cs with
  | ok taken =>
    obtain ⟨y, rest'⟩ := taken
    exact ⟨y, rest', rfl, goes.taken inside whole⟩
  | error flaw => cases whole.symm.trans (goes.refused inside)

theorem imp {holds' : β → τ → Prop} (weaker : ∀ x y, holds x y → holds' x y) : Within inner outer lead holds' where
  opens := h.opens
  goes opens := ⟨(h.goes opens).refused, fun taken _ _ whole => weaker _ _ ((h.goes opens).taken taken whole)⟩

theorem trans {innermost : Reader σ} {lead' : List Char} {holds' : τ → σ → Prop}
    (h' : Within innermost inner lead' holds') :
    Within innermost outer (lead ++ lead') (fun x z => ∃ y, holds x y ∧ holds' y z) where
  opens {cs} opens := by
    rw [List.append_assoc]
    exact h.opens (h'.opens opens)
  goes {cs} opens := by
    rw [List.append_assoc]
    refine ⟨fun refused => (h.goes (h'.opens opens)).refused ((h'.goes opens).refused refused), ?_⟩
    intro z rest taken x rest' whole
    obtain ⟨y, _, middle, held⟩ := h.exists_taken (h'.opens opens) whole
    exact ⟨y, held, (h'.goes opens).taken taken middle⟩

end Within

section Lists

variable {read : Reader τ}

theorem readElements_of_leads (passes : PassesBlanks read) {values : List (List Char)} {front : List Char}
    (leads : Leads values front) {xs : List τ} (reads : List.Forall₂ (Reads read) values xs) (done : List τ)
    (fuel : Nat) (cs : List Char) :
    readElements read (fuel + values.length) done (front ++ cs) = readElements read fuel (xs.reverse ++ done) cs := by
  induction leads generalizing xs done with
  | nil blank =>
    cases reads
    exact readElements_append passes fuel done blank cs
  | @cons before behind value front values blankBefore blankBehind _ ih =>
    cases reads with
    | @cons _ x _ xs first others =>
      have later := ih others (x :: done)
      have assoc : before ++ (value ++ (behind ++ ',' :: front)) ++ cs =
          before ++ (value ++ (behind ++ ',' :: (front ++ cs))) := by simp
      have order : (x :: xs).reverse ++ done = xs.reverse ++ x :: done := by simp
      rw [assoc, order, readElements_append passes _ _ blankBefore, List.length_cons, ← Nat.add_assoc, readElements,
        first _ (delimited_append blankBehind (delimited_comma _))]
      simp only [skipBlanks_append blankBehind, skipBlanks_cons (show isBlank ',' = false by decide)]
      exact later

theorem readElements_keeps {fuel : Nat} {done : List τ} {cs : List Char} {xs : List τ} {rest : List Char}
    (whole : readElements read fuel done cs = .ok (xs, rest)) : done.reverse <+: xs := by
  induction fuel generalizing done cs with
  | zero => cases whole
  | succ fuel ih =>
    rw [readElements] at whole
    split at whole
    · cases whole
    · rename_i x cs _
      have longer : done.reverse <+: (x :: done).reverse := ⟨[x], List.reverse_cons.symm⟩
      split at whole
      · exact longer.trans (ih whole)
      · cases whole
        exact longer
      · cases whole

theorem goesBy_readElements (read : Reader τ) (fuel : Nat) (done : List τ) (cs : List Char) :
    GoesBy read cs (fun xs x => (x :: done).reverse <+: xs) (readElements read (fuel + 1) done cs) where
  refused refused := by rw [readElements, refused]
  taken {x rest} taken {xs rest'} whole := by
    rw [readElements, taken] at whole
    simp only at whole
    split at whole
    · exact readElements_keeps whole
    · cases whole
      exact List.prefix_refl _
    · cases whole

theorem within_list (passes : PassesBlanks read) {values : List (List Char)} {front : List Char}
    (leads : Leads values front) (starts : ∀ value ∈ values, Starts value) {xs : List τ}
    (reads : List.Forall₂ (Reads read) values xs) :
    Within read (readList read) ('[' :: front) (fun xs x => xs[values.length]? = some x) where
  opens _ := ⟨'[', _, rfl, by decide⟩
  goes {cs} opens := by
    -- The fuel is the length of what follows the bracket, so that some is left after the values in front.
    obtain ⟨blanks, first, more, blank, either, same, enough⟩ := leads.exists_first cs
    have begins : Starts first := by
      rcases either with rfl | member
      · exact opens.starts
      · exact starts first member
    have long : values.length < (first ++ more).length := by
      obtain ⟨c, inner, rfl, _⟩ := begins
      simp only [List.length_append, List.length_cons]
      omega
    obtain ⟨fuel, long⟩ := Nat.exists_eq_add_of_lt long
    have elements : readList read ('[' :: (front ++ cs)) = readElements read (fuel + 1) xs.reverse cs := by
      have come := readElements_of_leads passes leads reads [] (fuel + 1) cs
      rw [same, readElements_append passes _ _ blank, Nat.add_comm, ← Nat.add_assoc, ← long, List.append_nil] at come
      rw [readList, skipBlanks_cons (by decide)]
      simp only [same, skipBlanks_append blank, begins.skipBlanks_append]
      obtain ⟨c, inner, rfl, _, notEnd⟩ := begins
      split
      · rename_i end'
        exact absurd (List.cons.inj end').1 notEnd
      · exact come
    have goes := goesBy_readElements read fuel xs.reverse cs
    rw [List.cons_append, elements]
    refine ⟨goes.refused, ?_⟩
    intro x rest taken all rest' whole
    obtain ⟨later, rfl⟩ := goes.taken taken whole
    simp [reads.length_eq]

theorem within_option (read : Reader τ) : Within read (readOption read) [] (fun x y => x = some y) where
  opens := id
  goes {cs} opens := by
    rw [List.nil_append, readOption_of_opens opens]
    constructor
    · intro flaw refused
      rw [refused]
    · intro y rest taken x rest' whole
      rw [taken] at whole
      cases whole
      rfl

end Lists

/-- A record up to where the value of a field is due: an object behind the key of the field, with other members in
front, or a list behind the values of the fields before it. -/
inductive Due (schema : Schema) (key : String) : List Char → Prop where
  | member {members : List Member} {texts : List (List Char)} {front written before behind : List Char} :
      Begun schema members → List.Forall₂ SpellsMember members texts → Leads texts front →
      key ∈ schema.map Prod.fst → key ∉ members.map Prod.fst → Text.SpellsString key written → Blank before →
      Blank behind → Due schema key ('{' :: (front ++ (written ++ (before ++ ':' :: behind))))
  | listed {done later : Schema} {spells : List Char → Prop} {values : List (List Char)} {front : List Char} :
      schema = done ++ (key, spells) :: later → List.Forall₂ (fun type value => type.2 value) done values →
      Leads values front → Due schema key ('[' :: front)

def Field.Keeps (slot : ρ → Option τ) (field : Field ρ) : Prop :=
  ∀ draft draft' cs rest, field.read draft cs = .ok (draft', rest) → slot draft' = slot draft

theorem Field.keeps_of {name : String} {own : ρ → Option σ} {set : ρ → σ → ρ} (read : Reader σ)
    {slot : ρ → Option τ} (elsewhere : ∀ draft x, slot (set draft x) = slot draft) :
    (Field.of name own set read).Keeps slot := by
  intro draft draft' cs rest whole
  simp only [Field.of] at whole
  split at whole
  · cases whole
    exact elsewhere draft _
  · cases whole

namespace Record

variable {record : Record ρ β} {key : String} {slot : ρ → Option τ} {read : Reader τ} {get : β → τ}

/-- The field with the key is read into a slot of the draft that no other field writes, and from there the record
takes it. -/
structure Carries (record : Record ρ β) (key : String) (slot : ρ → Option τ) (read : Reader τ) (get : β → τ) :
    Prop where
  fields : ∃ front set back, record.fields = front ++ .of key slot set read :: back ∧
    (∀ draft y, slot (set draft y) = some y) ∧ ∀ field ∈ front ++ back, field.name ≠ key ∧ field.Keeps slot
  build : ∀ {draft : ρ} {x : β} {y : τ}, slot draft = some y → record.build draft = some x → get x = y

theorem carries_of_single (make : τ → β) {record : Record (Option τ) β} {get : β → τ}
    (fields : record.fields = [.of key id (fun _ x => some x) read]) (build : record.build = Option.map make)
    (made : ∀ y, get (make y) = y) : record.Carries key id read get where
  fields := ⟨[], _, [], fields, fun _ _ => rfl, List.forall_mem_nil _⟩
  build {draft x y} filled built := by
    obtain rfl : draft = some y := filled
    rw [build] at built
    obtain rfl : make y = x := Option.some.inj built
    exact made y

namespace Carries

variable (h : record.Carries key slot read get) {draft draft' : ρ} {cs rest : List Char} {y : τ}

include h

theorem own {field : Field ρ} (member : field ∈ record.fields) (named : field.name = key) :
    ∃ set, field = .of key slot set read ∧ ∀ draft y, slot (set draft y) = some y := by
  obtain ⟨front, set, back, fields, added, others⟩ := h.fields
  rw [fields, List.mem_append, List.mem_cons, or_left_comm, ← List.mem_append] at member
  rcases member with rfl | other
  · exact ⟨set, rfl, added⟩
  · exact absurd named (others field other).1

theorem others {field : Field ρ} (member : field ∈ record.fields) (other : field.name ≠ key) : field.Keeps slot := by
  obtain ⟨front, set, back, fields, _, others⟩ := h.fields
  rw [fields, List.mem_append, List.mem_cons, or_left_comm, ← List.mem_append] at member
  rcases member with rfl | member
  · exact absurd rfl other
  · exact (others field member).2

/-- A slot that is filled stays as it is: the key of its field is refused when it comes again. -/
theorem readMember_keeps (filled : slot draft = some y) (whole : record.readMember draft cs = .ok (draft', rest)) :
    slot draft' = some y := by
  rw [readMember.eq_def] at whole
  split at whole
  · split at whole
    · cases whole
    · split at whole
      · rename_i field found
        have own := List.mem_of_find?_eq_some found
        split at whole
        · cases whole
        · rename_i unset
          split at whole
          · by_cases named : field.name = key
            · obtain ⟨set, rfl, _⟩ := h.own own named
              exact absurd (Option.isSome_of_eq_some filled) unset
            · exact (h.others own named _ _ _ _ whole).trans filled
          · cases whole
      · split at whole
        · cases whole
          exact filled
        · cases whole
  · cases whole

theorem readMembers_keeps {fuel : Nat} (filled : slot draft = some y)
    (whole : record.readMembers fuel draft cs = .ok (draft', rest)) : slot draft' = some y := by
  induction fuel generalizing draft cs with
  | zero => cases whole
  | succ fuel ih =>
    rw [readMembers] at whole
    split at whole
    · cases whole
    · rename_i first
      have kept := h.readMember_keeps filled first
      split at whole
      · exact ih kept whole
      · cases whole
        exact kept
      · cases whole

theorem readFields_keeps {fields : List (Field ρ)} (others : ∀ field ∈ fields, field ∈ record.fields ∧ field.name ≠ key)
    {first : Bool} (filled : slot draft = some y) (whole : readFields fields first draft cs = .ok (draft', rest)) :
    slot draft' = some y := by
  induction fields generalizing first draft cs with
  | nil =>
    rw [readFields] at whole
    split at whole
    · cases whole
      exact filled
    · cases whole
  | cons field fields ih =>
    obtain ⟨⟨own, other⟩, others⟩ := List.forall_mem_cons.mp others
    have kept {next : ρ} {cs rest : List Char} (taken : field.read draft cs = .ok (next, rest)) : slot next = some y :=
      (h.others own other _ _ _ _ taken).trans filled
    rw [readFields] at whole
    split at whole
    · cases whole
      exact filled
    · split at whole
      · split at whole
        · rename_i taken
          exact ih others (kept taken) whole
        · cases whole
      · split at whole
        · split at whole
          · rename_i taken
            exact ih others (kept taken) whole
          · cases whole
        · cases whole
    · cases whole

theorem goesBy_readMembers {field : Field ρ} (own : field ∈ record.fields) (named : field.name = key)
    {text value : List Char} (member : record.readMember draft text = field.read draft value) (fuel : Nat) :
    GoesBy read value (fun draft y => slot draft = some y) (record.readMembers (fuel + 1) draft text) := by
  obtain ⟨set, rfl, added⟩ := h.own own named
  constructor
  · intro flaw refused
    rw [readMembers, member, Field.read_of_error refused]
  · intro y rest taken draft' rest' whole
    rw [readMembers, member] at whole
    simp only [Field.of, taken] at whole
    split at whole
    · exact h.readMembers_keeps (added draft y) whole
    · cases whole
      exact added draft y
    · cases whole

theorem goesBy_readFields {field : Field ρ} (own : field ∈ record.fields) (named : field.name = key)
    {fields : List (Field ρ)} (others : ∀ field ∈ fields, field ∈ record.fields ∧ field.name ≠ key) (draft : ρ)
    (value : List Char) :
    GoesBy read value (fun draft y => slot draft = some y)
      (match field.read draft value with
        | .ok (draft, rest) => readFields fields false draft rest
        | .error flaw => .error flaw) := by
  obtain ⟨set, rfl, added⟩ := h.own own named
  constructor
  · intro flaw refused
    rw [Field.read_of_error refused]
  · intro y rest taken draft' rest' whole
    simp only [Field.of, taken] at whole
    exact h.readFields_keeps others (added draft y) whole

theorem goesBy_readObject {text value : List Char}
    (goes : GoesBy read value (fun draft y => slot draft = some y) (record.readDraft text)) :
    GoesBy read value (fun x y => get x = y) (record.readObject text) where
  refused refused := by rw [readObject, goes.refused refused]
  taken {y rest} taken {x rest'} whole := by
    rw [readObject] at whole
    split at whole
    · cases whole
    · rename_i drafted
      split at whole
      · rename_i built
        cases whole
        exact h.build (goes.taken taken drafted) built
      · cases whole

theorem goesBy_readListed {text value : List Char}
    (goes : GoesBy read value (fun draft y => slot draft = some y)
      (readFields record.fields true record.empty text)) :
    GoesBy read value (fun x y => get x = y) (record.readListed text) where
  refused refused := by rw [readListed, goes.refused refused]
  taken {y rest} taken {x rest'} whole := by
    rw [readListed] at whole
    split at whole
    · cases whole
    · rename_i filled
      split at whole
      · rename_i built
        cases whole
        exact h.build (goes.taken taken filled) built
      · cases whole

end Carries

theorem Carries.within {schema : Schema} (h : record.Carries key slot read get) (follows : record.Follows schema)
    {lead : List Char} (due : Due schema key lead) : Within read record.read lead (fun x y => get x = y) where
  opens := by
    intro cs _
    cases due with
    | member => exact ⟨'{', _, rfl, by decide⟩
    | listed => exact ⟨'[', _, rfl, by decide⟩
  goes {cs} opens := by
    cases due with
    | @member members texts front written before behind begun spelled leads field fresh spells blank blank' =>
      have text : SpellsMember (key, cs) (written ++ (before ++ ':' :: (behind ++ cs))) :=
        ⟨written, spells, before, behind, blank, blank', rfl⟩
      obtain ⟨draft, own, fuel, isField, named, left, drafted⟩ :=
        follows.exists_member begun spelled leads field fresh text
      have assoc : '{' :: (front ++ (written ++ (before ++ ':' :: behind))) ++ cs =
          '{' :: (front ++ (written ++ (before ++ ':' :: (behind ++ cs)))) := by simp
      rw [assoc, Record.read, skipBlanks_cons (by decide)]
      exact h.goesBy_readObject (drafted ▸ h.goesBy_readMembers isField named left fuel)
    | listed split typed leads =>
      obtain ⟨draft, own, others, isField, named, different, filled⟩ :=
        follows.exists_listed split typed leads opens.starts
      rw [List.cons_append, Record.read, skipBlanks_cons (by decide)]
      exact h.goesBy_readListed (filled ▸ h.goesBy_readFields isField named different draft cs)

end Record

end CountedStack.Json
