import CountedStack.Proofs.Json.Record
import Mathlib.Data.List.Find
import Mathlib.Data.List.Nodup

/-!
A record is read from left to right, so that its first flaw decides, whatever comes behind it. `FirstFlaw` puts
down, without the reader, where a flaw stands.
-/

namespace CountedStack.Json

/-- The fields of a record: what they are called, and the texts of their values. -/
abbrev Schema := List (String × (List Char → Prop))

def IsField (type : String × (List Char → Prop)) (m : Member) : Prop := m.1 = type.1 ∧ type.2 m.2

/-- The members of an object that have come so far: fields with their values, each at most once, among members
that are no fields. -/
structure Begun (schema : Schema) (members : List Member) : Prop where
  typed : ∀ m ∈ members, ∀ spells, (m.1, spells) ∈ schema → spells m.2
  others : ∀ m ∈ members, m.1 ∉ schema.map Prod.fst → IsValue m.2
  once : ((members.filter fun m => m.1 ∈ schema.map Prod.fst).map Prod.fst).Nodup

/-- A text up to its first flaw, and anything behind it. `misfit key cs flaw` says that `cs` begins with the
flaw where the value of the field `key` is due. -/
inductive FirstFlaw (schema : Schema) (misfit : String → List Char → Flaw → Prop) : List Char → Flaw → Prop where
  | repeated {members : List Member} {texts : List (List Char)} {lead written rest : List Char} {key : String} :
      Begun schema members → List.Forall₂ SpellsMember members texts → Leads texts lead →
      key ∈ schema.map Prod.fst → key ∈ members.map Prod.fst → Text.SpellsString key written →
      FirstFlaw schema misfit ('{' :: (lead ++ (written ++ rest))) (.duplicateField key)
  | member {members : List Member} {texts : List (List Char)} {lead value text : List Char} {key : String}
      {flaw : Flaw} :
      Begun schema members → List.Forall₂ SpellsMember members texts → Leads texts lead →
      key ∈ schema.map Prod.fst → key ∉ members.map Prod.fst → SpellsMember (key, value) text →
      misfit key value flaw → FirstFlaw schema misfit ('{' :: (lead ++ text)) flaw
  | listed {done later : Schema} {key : String} {spells : List Char → Prop} {values : List (List Char)}
      {lead value : List Char} {flaw : Flaw} :
      schema = done ++ (key, spells) :: later → List.Forall₂ (fun type value => type.2 value) done values →
      Leads values lead → Starts value → misfit key value flaw → FirstFlaw schema misfit ('[' :: (lead ++ value)) flaw

/-- A text of a record that needs all of its fields: up to its first flaw, or up to a brace that comes before all
fields have, and anything behind it. The first field that is missing is named, in the order of the fields. -/
inductive Flawed (schema : Schema) (misfit : String → List Char → Flaw → Prop) : List Char → Flaw → Prop where
  | first {text : List Char} {flaw : Flaw} : FirstFlaw schema misfit text flaw → Flawed schema misfit text flaw
  | missing {members : List Member} {texts : List (List Char)} {text rest : List Char} {key : String} :
      Begun schema members → List.Forall₂ SpellsMember members texts → Enclosed '{' '}' texts text →
      (schema.map Prod.fst).find? (· ∉ members.map Prod.fst) = some key →
      Flawed schema misfit (text ++ rest) (.missingField key)

theorem map_fst_of_isField {schema : Schema} {fields : List Member} (h : List.Forall₂ IsField schema fields) :
    fields.map Prod.fst = schema.map Prod.fst := by
  induction h with
  | nil => rfl
  | cons first _ ih => rw [List.map_cons, List.map_cons, first.1, ih]

theorem exists_isField {schema : Schema} {values : List (List Char)}
    (typed : List.Forall₂ (fun type value => type.2 value) schema values) :
    ∃ fields, List.Forall₂ IsField schema fields ∧ fields.map Prod.snd = values := by
  induction typed with
  | nil => exact ⟨[], .nil, rfl⟩
  | @cons type value _ _ own _ ih =>
    obtain ⟨fields, isFields, rfl⟩ := ih
    exact ⟨(type.1, value) :: fields, .cons ⟨rfl, own⟩ isFields, rfl⟩

theorem Begun.nil (schema : Schema) : Begun schema [] where
  typed := by simp
  others := by simp
  once := by simp

namespace Begun

variable {schema : Schema} {members : List Member} (h : Begun schema members)

include h

theorem eq_of_key {m m' : Member} (member : m ∈ members) (member' : m' ∈ members)
    (field : m.1 ∈ schema.map Prod.fst) (same : m.1 = m'.1) : m = m' := by
  have kept : m ∈ members.filter fun m => m.1 ∈ schema.map Prod.fst :=
    List.mem_filter.mpr ⟨member, decide_eq_true field⟩
  have kept' : m' ∈ members.filter fun m => m.1 ∈ schema.map Prod.fst :=
    List.mem_filter.mpr ⟨member', decide_eq_true (same ▸ field)⟩
  exact List.inj_on_of_nodup_map h.once kept kept' same

/-- What has come of the fields can be completed to all of them. -/
theorem exists_fields (inhabited : ∀ type ∈ schema, ∃ text, type.2 text) :
    ∃ fields, List.Forall₂ IsField schema fields ∧ ∀ m ∈ members, m.1 ∈ schema.map Prod.fst → m ∈ fields := by
  suffices part : ∀ part ⊆ schema, ∃ fields, List.Forall₂ IsField part fields ∧
      ∀ m ∈ members, m.1 ∈ part.map Prod.fst → m ∈ fields from part schema (List.Subset.refl schema)
  intro part within
  -- Field by field: the member that has come for it, or else any of its values.
  induction part with
  | nil => exact ⟨[], .nil, by simp⟩
  | cons type part ih =>
    obtain ⟨own, others⟩ := List.cons_subset.mp within
    obtain ⟨fields, isFields, present⟩ := ih others
    have named : type.1 ∈ schema.map Prod.fst := List.mem_map_of_mem own
    by_cases come : ∃ m ∈ members, m.1 = type.1
    · obtain ⟨m, member, key⟩ := come
      have value : type.2 m.2 := h.typed m member type.2 (by rw [key]; exact own)
      refine ⟨m :: fields, .cons ⟨key, value⟩ isFields, ?_⟩
      intro m' member' field
      rcases List.mem_cons.mp field with same | later
      · rw [h.eq_of_key member' member (by rw [same]; exact named) (same.trans key.symm)]
        exact List.mem_cons_self
      · exact List.mem_cons_of_mem m (present m' member' later)
    · obtain ⟨text, value⟩ := inhabited type own
      refine ⟨(type.1, text) :: fields, .cons ⟨rfl, value⟩ isFields, ?_⟩
      intro m' member' field
      rcases List.mem_cons.mp field with same | later
      · exact absurd ⟨m', member', same⟩ come
      · exact List.mem_cons_of_mem _ (present m' member' later)

end Begun

namespace Record

variable {ρ β : Type} {record : Record ρ β}

structure Follows (record : Record ρ β) (schema : Schema) : Prop where
  inhabited : ∀ type ∈ schema, ∃ text, type.2 text
  fills : ∀ fields, List.Forall₂ IsField schema fields → ∃ draft x, record.Fills draft fields x

/-- A draft makes a record only if it has all of the fields. -/
def NeedsAll (record : Record ρ β) : Prop :=
  ∀ draft, ∀ field ∈ record.fields, field.isSet draft = false → record.build draft = none

/-- Whatever members have begun an object, they leave a draft of a record with just their fields. -/
theorem Follows.exists_seen {schema : Schema} (follows : record.Follows schema) {members : List Member}
    (begun : Begun schema members) :
    ∃ draft fields x seen, record.Fills draft fields x ∧ fields.map Prod.fst = schema.map Prod.fst ∧
      Sees fields [] members seen ∧ ∀ key ∈ schema.map Prod.fst, (key ∈ seen ↔ key ∈ members.map Prod.fst) := by
  obtain ⟨fields, isFields, present⟩ := begun.exists_fields follows.inhabited
  have names := map_fst_of_isField isFields
  obtain ⟨draft, x, fills⟩ := follows.fills fields isFields
  obtain ⟨seen, sees⟩ : ∃ seen, Sees fields [] members seen := by
    refine exists_sees ?_ ?_ ?_ <;> rw [names]
    · exact fun m member field => ⟨present m member field, List.not_mem_nil⟩
    · exact begun.others
    · exact begun.once
  refine ⟨draft, fields, x, seen, fills, names, sees, ?_⟩
  intro key named
  exact (sees.mem_iff (names ▸ named)).trans (or_iff_right List.not_mem_nil)

theorem follows_of_single {τ : Type} [Nonempty τ] (make : τ → β) {record : Record (Option τ) β} {name : String}
    {read : Reader τ} (fields : record.fields = [.of name id (fun _ x => some x) read]) (empty : record.empty = none)
    (build : record.build = Option.map make) {spells : τ → List Char → Prop} {write : τ → List Char} {norm : τ → τ}
    (h : ReadsBack spells write read norm) : record.Follows [(name, fun text => ∃ x, spells x text)] where
  inhabited := by
    obtain ⟨x⟩ := ‹Nonempty τ›
    exact List.forall_mem_singleton.mpr ⟨write x, x, h.written x⟩
  fills := by
    intro members isFields
    obtain ⟨⟨_, _⟩, _, ⟨rfl, x, spelled⟩, none, rfl⟩ := List.forall₂_cons_left_iff.mp isFields
    cases none
    exact ⟨_, _, fills_of_single make fields empty build h spelled⟩

/-! ### A flaw among the members of an object -/

theorem exists_quote_of_leads {members : List Member} {texts : List (List Char)} {lead next cs : List Char}
    (leads : Leads texts lead) (spelled : List.Forall₂ SpellsMember members texts) (quoted : next = '"' :: cs) :
    ∃ tail, skipBlanks (lead ++ next) = '"' :: tail ∧ texts.length ≤ tail.length := by
  obtain ⟨blanks, first, more, blank, either, same, enough⟩ := leads.exists_first next
  obtain ⟨inner, rfl⟩ : ∃ inner, first = '"' :: inner := by
    rcases either with rfl | member
    · exact ⟨cs, quoted⟩
    · obtain ⟨m, _, spells⟩ := exists_of_mem_right spelled member
      exact spells.head
  refine ⟨inner ++ more, ?_, ?_⟩
  · rw [same, skipBlanks_append blank, List.cons_append, skipBlanks_cons (by decide)]
  · rw [List.length_append]
    omega

namespace Fills

variable {draft : List String → ρ} {fields : List Member} {x : β} (h : record.Fills draft fields x)
  {members : List Member} {texts : List (List Char)} {lead : List Char} {seen seen' : List String}

include h

theorem readMembers_of_leads (leads : Leads texts lead) (spelled : List.Forall₂ SpellsMember members texts)
    (sees : Sees fields seen members seen') (fuel : Nat) {next cs : List Char} (quoted : next = '"' :: cs) :
    record.readMembers (fuel + texts.length) (draft seen) (skipBlanks (lead ++ next)) =
      record.readMembers fuel (draft seen') next := by
  -- Each member that has come uses up one unit of the fuel and passes what has been seen on to the next.
  induction leads generalizing members seen with
  | nil blank =>
    cases spelled
    cases sees
    rw [skipBlanks_append blank, quoted, skipBlanks_cons (by decide)]
    rfl
  | @cons before behind text lead texts blankBefore blankBehind leads ih =>
    cases spelled with
    | cons first others =>
      obtain ⟨_, read, later⟩ := h.readMember_of_sees sees first
      have starts : Starts text := by
        obtain ⟨cs, rfl⟩ := first.head
        exact ⟨'"', cs, rfl, by decide⟩
      have assoc : before ++ (text ++ (behind ++ ',' :: lead)) ++ next =
          before ++ (text ++ (behind ++ ',' :: (lead ++ next))) := by simp
      rw [assoc, skipBlanks_append blankBefore, starts.skipBlanks_append, List.length_cons, ← Nat.add_assoc,
        readMembers, read _ (delimited_append blankBehind (delimited_comma _))]
      simp only [skipBlanks_append blankBehind, skipBlanks_cons (show isBlank ',' = false by decide)]
      exact ih others later

theorem readDraft_of_leads (leads : Leads texts lead) (spelled : List.Forall₂ SpellsMember members texts)
    (sees : Sees fields [] members seen') {next cs : List Char} (quoted : next = '"' :: cs) :
    ∃ fuel, record.readDraft (lead ++ next) = record.readMembers (fuel + 1) (draft seen') next := by
  obtain ⟨tail, skipped, enough⟩ := exists_quote_of_leads leads spelled quoted
  obtain ⟨fuel, enough⟩ := Nat.exists_eq_add_of_le' enough
  have later := h.readMembers_of_leads leads spelled sees (fuel + 1) quoted
  refine ⟨fuel, ?_⟩
  rw [skipped] at later
  rw [readDraft, skipped, ← later, Nat.add_right_comm, ← enough, ← h.empty]
  rfl

theorem readMember_again {m : Member} (member : m ∈ fields) (again : m.1 ∈ seen) {key : List Char}
    (spelled : Text.SpellsString m.1 key) (rest : List Char) :
    record.readMember (draft seen) (key ++ rest) = .error (.duplicateField m.1) := by
  obtain ⟨inner, spelled, rfl⟩ := spelled
  obtain ⟨field, found, fills⟩ := find?_of_mem h.each h.distinct member
  have set : field.isSet (draft seen) = true := (fills.isSet seen).mpr again
  have unquoted := Text.unquote_of_spells spelled rest
  have assoc : '"' :: (inner ++ ['"']) ++ rest = '"' :: (inner ++ '"' :: rest) := by simp
  rw [assoc, readMember]
  simp only [unquoted, found, set, if_true]

theorem readMember_of_unseen {m : Member} (member : m ∈ fields) (unseen : m.1 ∉ seen) {value text : List Char}
    (spelled : SpellsMember (m.1, value) text) :
    ∃ field ∈ record.fields, field.name = m.1 ∧
      record.readMember (draft seen) text = field.read (draft seen) value := by
  obtain ⟨behind, blank, read, _⟩ := readMember_of_spells record (draft seen) spelled
  obtain ⟨field, found, fills⟩ := find?_of_mem h.each h.distinct member
  have unset : field.isSet (draft seen) = false := by
    rw [← Bool.not_eq_true, fills.isSet]
    exact unseen
  have read := read field found unset []
  rw [List.append_nil, List.append_nil, (fills.blanks seen).read_append blank] at read
  exact ⟨field, List.mem_of_find?_eq_some found, fills.name, read⟩

end Fills

section Members

variable {schema : Schema} (follows : record.Follows schema) {members : List Member} {texts : List (List Char)}
  {lead : List Char} (begun : Begun schema members) (spelled : List.Forall₂ SpellsMember members texts)
  (leads : Leads texts lead) {key : String} (field : key ∈ schema.map Prod.fst)

include follows begun spelled leads field

theorem read_of_repeated (again : key ∈ members.map Prod.fst) {written : List Char}
    (spells : Text.SpellsString key written) (rest : List Char) :
    record.read ('{' :: (lead ++ (written ++ rest))) = .error (.duplicateField key) := by
  obtain ⟨draft, fields, x, seen, fills, names, sees, come⟩ := follows.exists_seen begun
  obtain ⟨m, member, rfl⟩ := List.mem_map.mp (names ▸ field)
  have refused := fills.readMember_again member ((come _ field).mpr again) spells rest
  obtain ⟨cs, quoted⟩ : ∃ cs, written ++ rest = '"' :: cs := by
    obtain ⟨inner, _, rfl⟩ := spells
    exact ⟨_, rfl⟩
  obtain ⟨fuel, drafted⟩ := fills.readDraft_of_leads leads spelled sees quoted
  rw [readMembers, refused] at drafted
  rw [read, skipBlanks_cons (by decide)]
  simp only [readObject, drafted]

theorem Follows.exists_member (fresh : key ∉ members.map Prod.fst) {value text : List Char}
    (spells : SpellsMember (key, value) text) :
    ∃ draft own fuel, own ∈ record.fields ∧ own.name = key ∧
      record.readMember draft text = own.read draft value ∧
      record.readDraft (lead ++ text) = record.readMembers (fuel + 1) draft text := by
  obtain ⟨draft, fields, x, seen, fills, names, sees, come⟩ := follows.exists_seen begun
  obtain ⟨m, member, rfl⟩ := List.mem_map.mp (names ▸ field)
  have unseen : m.1 ∉ seen := fun seen => fresh ((come _ field).mp seen)
  obtain ⟨own, isField, named, left⟩ := fills.readMember_of_unseen member unseen spells
  obtain ⟨cs, quoted⟩ := spells.head
  obtain ⟨fuel, drafted⟩ := fills.readDraft_of_leads leads spelled sees quoted
  exact ⟨draft seen, own, fuel, isField, named, left, drafted⟩

end Members

/-! ### A flaw among the values of a list -/

theorem Follows.exists_first {schema done later : Schema} {key : String} {spells : List Char → Prop}
    (follows : record.Follows schema) (split : schema = done ++ (key, spells) :: later) {values : List (List Char)}
    (typed : List.Forall₂ (fun type value => type.2 value) done values) :
    ∃ draft known field others first m, record.fields = known ++ field :: others ∧ draft [] = record.empty ∧
      List.Forall₂ (Field.Fills draft) known first ∧ first.map Prod.snd = values ∧ field.Fills draft m ∧
      m.1 = key := by
  obtain ⟨first, isFirst, rfl⟩ := exists_isField typed
  have inhabited : ∀ type ∈ (key, spells) :: later, ∃ text, type.2 text := fun type member =>
    follows.inhabited type (split ▸ List.mem_append_right done member)
  obtain ⟨_, isRest, _⟩ := (Begun.nil ((key, spells) :: later)).exists_fields inhabited
  obtain ⟨m, rest, isField, others, rfl⟩ := List.forall₂_cons_left_iff.mp isRest
  obtain ⟨draft, x, fills⟩ := follows.fills (first ++ m :: rest)
    (split ▸ List.rel_append isFirst (.cons isField others))
  have front := List.forall₂_take_append _ _ _ fills.each
  have back := List.forall₂_drop_append _ _ _ fills.each
  obtain ⟨field, unread, fill, _, dropped⟩ := List.forall₂_cons_right_iff.mp back
  refine ⟨draft, _, field, unread, first, m, ?_, fills.empty, front, rfl, fill, isField.1⟩
  rw [← dropped, List.take_append_drop]

section Listed

variable {draft : List String → ρ} {known : List (Field ρ)} {fields : List Member} {field : Field ρ}
  {lead : List Char} (each : List.Forall₂ (Field.Fills draft) known fields)
  (leads : Leads (fields.map Prod.snd) lead) (passes : ∀ seen, PassesBlanks (field.read (draft seen)))
  (others : List (Field ρ))

include each leads passes

theorem readFields_comma_of_leads (value : List Char) {blanks : List Char} (blank : Blank blanks)
    (seen : List String) :
    ∃ seen', readFields (known ++ field :: others) false (draft seen) (blanks ++ ',' :: (lead ++ value)) =
      match field.read (draft seen') value with
      | .ok (x, rest) => readFields others false x rest
      | .error flaw => .error flaw := by
  induction each generalizing lead blanks seen with
  | nil =>
    cases leads with
    | nil blank' =>
      have taken := readFields_comma field others (draft seen) blank (lead ++ value)
      rw [(passes seen).read_append blank'] at taken
      exact ⟨seen, taken⟩
  | @cons first m known fields fills _ ih =>
    cases leads with
    | @cons before behind _ lead _ blankBefore blankBehind leads =>
      obtain ⟨seen', later⟩ := ih leads blankBehind (m.1 :: seen)
      have assoc : before ++ (m.2 ++ (behind ++ ',' :: lead)) ++ value =
          before ++ (m.2 ++ (behind ++ ',' :: (lead ++ value))) := by simp
      have taken := fills.reads seen _ (delimited_append blankBehind (delimited_comma (lead ++ value)))
      refine ⟨seen', ?_⟩
      rw [assoc, List.cons_append, readFields_comma first _ _ blank, (fills.blanks seen).read_append blankBefore,
        taken]
      exact later

theorem readFields_of_leads {value : List Char} (starts : Starts value) :
    ∃ seen, readFields (known ++ field :: others) true (draft []) (lead ++ value) =
      match field.read (draft seen) value with
      | .ok (x, rest) => readFields others false x rest
      | .error flaw => .error flaw := by
  cases each with
  | nil =>
    cases leads with
    | nil blank => exact ⟨[], readFields_start field _ _ blank starts⟩
  | @cons first m known fields fills each =>
    cases leads with
    | @cons before behind _ lead _ blankBefore blankBehind leads =>
      obtain ⟨seen, later⟩ := readFields_comma_of_leads each leads passes others value blankBehind [m.1]
      have assoc : before ++ (m.2 ++ (behind ++ ',' :: lead)) ++ value =
          before ++ (m.2 ++ (behind ++ ',' :: (lead ++ value))) := by simp
      have taken := fills.reads [] _ (delimited_append blankBehind (delimited_comma (lead ++ value)))
      refine ⟨seen, ?_⟩
      rw [assoc, List.cons_append, readFields_start first _ _ blankBefore (fills.starts.append _), taken]
      exact later

end Listed

theorem map_name_of_fills {draft : List String → ρ} {known : List (Field ρ)} {fields : List Member}
    (each : List.Forall₂ (Field.Fills draft) known fields) : known.map (·.name) = fields.map Prod.fst := by
  induction each with
  | nil => rfl
  | cons first _ ih => rw [List.map_cons, List.map_cons, first.name, ih]

theorem Follows.names {schema : Schema} (follows : record.Follows schema) :
    record.fields.map (·.name) = schema.map Prod.fst ∧ (schema.map Prod.fst).Nodup := by
  obtain ⟨draft, fields, x, _, fills, names, _⟩ := follows.exists_seen (.nil schema)
  exact ⟨(map_name_of_fills fills.each).trans names, names ▸ fills.distinct⟩

theorem Follows.exists_listed {schema done later : Schema} {key : String} {spells : List Char → Prop}
    (follows : record.Follows schema) (split : schema = done ++ (key, spells) :: later) {values : List (List Char)}
    (typed : List.Forall₂ (fun type value => type.2 value) done values) {lead value : List Char}
    (leads : Leads values lead) (starts : Starts value) :
    ∃ draft own others, own ∈ record.fields ∧ own.name = key ∧
      (∀ other ∈ others, other ∈ record.fields ∧ other.name ≠ key) ∧
      readFields record.fields true record.empty (lead ++ value) =
        match own.read draft value with
        | .ok (x, rest) => readFields others false x rest
        | .error flaw => .error flaw := by
  obtain ⟨draft, known, own, others, first, m, whole, empty, each, rfl, fill, rfl⟩ := follows.exists_first split typed
  have different : ∀ other ∈ others, other ∈ record.fields ∧ other.name ≠ m.1 := by
    obtain ⟨names, distinct⟩ := follows.names
    rw [← names, whole, List.map_append, List.map_cons] at distinct
    intro other member
    refine ⟨whole ▸ List.mem_append_right known (List.mem_cons_of_mem own member), ?_⟩
    intro same
    have once := (List.nodup_cons.mp distinct.of_append_right).1
    exact once (fill.name.trans same.symm ▸ List.mem_map_of_mem member)
  obtain ⟨seen, filled⟩ := readFields_of_leads each leads fill.blanks others starts
  rw [empty, ← whole] at filled
  exact ⟨draft seen, own, others, whole ▸ List.mem_append_right known List.mem_cons_self, fill.name, different, filled⟩

theorem find?_unset_eq {draft : List String → ρ} {known : List (Field ρ)} {fields : List Member}
    (each : List.Forall₂ (Field.Fills draft) known fields) (seen : List String) :
    (known.find? fun field => !field.isSet (draft seen)).map (·.name) =
      (fields.map Prod.fst).find? (· ∉ seen) := by
  induction each with
  | nil => rfl
  | @cons field m known fields fills _ ih =>
    rw [List.map_cons, List.find?_cons, List.find?_cons, ih.symm]
    by_cases come : m.1 ∈ seen
    · simp [(fills.isSet seen).mpr come, come]
    · have unset : field.isSet (draft seen) = false := by
        rw [← Bool.not_eq_true, fills.isSet]
        exact come
      simp [unset, come, fills.name]

def Refuses (record : Record ρ β) (misfit : String → List Char → Flaw → Prop) : Prop :=
  ∀ field ∈ record.fields, ∀ draft cs flaw, misfit field.name cs flaw → field.read draft cs = .error flaw

variable {schema : Schema} {misfit : String → List Char → Flaw → Prop} (follows : record.Follows schema)
  (refuses : record.Refuses misfit)

include follows

include refuses in
theorem read_of_firstFlaw {text : List Char} {flaw : Flaw} (first : FirstFlaw schema misfit text flaw) :
    record.read text = .error flaw := by
  cases first with
  | repeated begun spelled leads field again spells =>
    exact read_of_repeated follows begun spelled leads field again spells _
  | member begun spelled leads field fresh spells wrong =>
    obtain ⟨draft, own, fuel, isField, rfl, left, drafted⟩ :=
      follows.exists_member begun spelled leads field fresh spells
    rw [readMembers, left, refuses own isField _ _ _ wrong] at drafted
    rw [read, skipBlanks_cons (by decide)]
    simp only [readObject, drafted]
  | listed split typed leads starts wrong =>
    obtain ⟨draft, own, others, isField, rfl, _, filled⟩ := follows.exists_listed split typed leads starts
    rw [refuses own isField _ _ _ wrong] at filled
    rw [read, skipBlanks_cons (by decide)]
    simp only [readListed, filled]

/-- The flaw names the first field, in their order, that has not come. -/
theorem read_of_missing (needs : record.NeedsAll) {members : List Member} {texts : List (List Char)}
    {text : List Char} (begun : Begun schema members) (spelled : List.Forall₂ SpellsMember members texts)
    (enclosed : Enclosed '{' '}' texts text) {key : String}
    (first : (schema.map Prod.fst).find? (· ∉ members.map Prod.fst) = some key) (rest : List Char) :
    record.read (text ++ rest) = .error (.missingField key) := by
  obtain ⟨draft, fields, x, seen, fills, names, sees, come⟩ := follows.exists_seen begun
  obtain ⟨cs, written, drafted⟩ := fills.readDraft_of_enclosed spelled enclosed sees rest
  have unset : (record.fields.find? fun field => !field.isSet (draft seen)).map (·.name) = some key := by
    rw [find?_unset_eq fills.each, names, ← first]
    refine List.find?_congr ?_
    intro name named
    simp only [come name named]
  obtain ⟨field, found, rfl⟩ := Option.map_eq_some_iff.mp unset
  have unbuilt : record.build (draft seen) = none := by
    refine needs _ field (List.mem_of_find?_eq_some found) ?_
    simpa using List.find?_some found
  rw [written, read, skipBlanks_cons (by decide)]
  simp only [readObject, drafted, unbuilt, missing, unset]
  rfl

include refuses in
theorem read_of_flawed (needs : record.NeedsAll) {text : List Char} {flaw : Flaw}
    (flawed : Flawed schema misfit text flaw) : record.read text = .error flaw := by
  cases flawed with
  | first first => exact read_of_firstFlaw follows refuses first
  | missing begun spelled enclosed first => exact read_of_missing follows needs begun spelled enclosed first _

end Record

end CountedStack.Json
