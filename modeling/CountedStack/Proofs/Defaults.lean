import CountedStack.Pool
import CountedStack.Session
import CountedStack.Proofs.Malformed

/-! Settings of which a part is given. What is left out takes its default. -/

namespace CountedStack.Settings

def fields (s : Settings) (name : List Char) : List Json.Member :=
  [("initial_capacity", Decimal.write s.capacity.val), ("name", name)]

/-- The text of the fields that are given: an object, or a list if they are the first ones. -/
def SpellsPart (s : Settings) (given : String → Bool) (text : List Char) : Prop :=
  ∃ name, Json.Text.SpellsString s.name name ∧
    Json.SpellsPart (s.fields name) ((s.fields name).filter fun m => given m.1) text

theorem zero_le_bound : (0 : Int) ≤ 0xffffffffffffffff := by decide

/-- The fields that are given, and the defaults for the others. -/
def keep (s : Settings) (given : String → Bool) : Settings where
  capacity := if given "initial_capacity" then s.capacity else Bounded.clamp 0 zero_le_bound
  name := if given "name" then s.name else "stackView"

theorem fills (s : Settings) {name : List Char} (spelled : Json.Text.SpellsString s.name name) :
    record.Fills
      (fun seen => ⟨if "initial_capacity" ∈ seen then some s.capacity else none,
        if "name" ∈ seen then some s.name else none⟩)
      (s.fields name) s where
  distinct := by simp [fields]
  empty := rfl
  each := by
    refine .cons (Json.Field.fills_of Json.readsBack_int rfl ?_ ?_)
      (.cons (Json.Field.fills_of Json.readsBack_string spelled ?_ ?_) .nil)
    all_goals
      intro seen
      simp
  build seen all := by
    have capacity := all "initial_capacity" (by simp [fields])
    have name := all "name" (by simp [fields])
    simp [record, Draft.build, capacity, name]

theorem reads_part (s : Settings) (given : String → Bool) {text : List Char} (spelled : s.SpellsPart given text) :
    Json.Reads record.read text (s.keep given) := by
  obtain ⟨name, spelledName, part⟩ := spelled
  refine (s.fills spelledName).read_of_part part ?_
  intro seen come
  have capacity : "initial_capacity" ∈ seen ↔ given "initial_capacity" = true := by
    rw [come _ (by simp [fields])]
    simp [fields]
  have name : "name" ∈ seen ↔ given "name" = true := by
    rw [come _ (by simp [fields])]
    simp [fields]
  simp only [record, Draft.build, keep, capacity, name]
  split <;> split <;> rfl

theorem ofJson_of_part (s : Settings) (given : String → Bool) {text : String}
    (spelled : Json.Surrounded (s.SpellsPart given) text.toList) : Snapshot.ofJson text = .ok (s.keep given) :=
  Snapshot.ofJson_of_reads record.passesBlanks (s.reads_part given) spelled

theorem spellsPart_write (s : Settings) : s.SpellsPart (fun _ => true) (Snapshot.write s) :=
  ⟨Json.Text.quote s.name, Json.Text.spellsString_quote s.name,
    (Json.spellsRecord_writeObject (s.fields (Json.Text.quote s.name))).part⟩

theorem ofJson_toJson_eq (s : Settings) : Snapshot.ofJson (Snapshot.toJson s) = .ok s :=
  s.ofJson_of_part (fun _ => true) (Snapshot.surrounded_of_spells s.spellsPart_write)

theorem toJson_inj {s t : Settings} : Snapshot.toJson s = Snapshot.toJson t ↔ s = t := by
  constructor
  · intro same
    have back : (Except.ok s : Except Json.Flaw Settings) = .ok t := by
      rw [← ofJson_toJson_eq s, ← ofJson_toJson_eq t, same]
    exact Except.ok.inj back
  · exact congrArg Snapshot.toJson

def schema : Json.Schema := [
  ("initial_capacity", fun text => ∃ n : Capacity, text = Decimal.write n.val),
  ("name", fun text => ∃ name, Json.Text.SpellsString name text)]

/-- A value of another type than the field has, `null` for one, or a negative capacity. -/
inductive Misfit : String → List Char → Json.Flaw → Prop where
  | capacity {cs : List Char} : Json.Foreign [.integer] cs → Misfit "initial_capacity" cs .wrongType
  | negative {n : Int} {rest : List Char} : -0x8000000000000000 ≤ n → n < 0 → Json.Delimited rest →
      Misfit "initial_capacity" (Decimal.write n ++ rest) .outOfRange
  | name {cs : List Char} : Json.Foreign [.string] cs → Misfit "name" cs .wrongType

theorem follows : record.Follows schema where
  inhabited := by
    have name : ∃ text s, Json.Text.SpellsString s text := ⟨_, "", Json.Text.spellsString_quote ""⟩
    simp only [schema, List.forall_mem_cons]
    exact ⟨⟨_, Bounded.clamp 0, rfl⟩, name, by simp⟩
  fills := by
    intro fields isFields
    simp only [schema, List.forall₂_cons_left_iff, List.forall₂_nil_left_iff] at isFields
    obtain ⟨⟨_, _⟩, _, ⟨rfl, capacity, rfl⟩, ⟨⟨_, _⟩, _, ⟨rfl, name, spelled⟩, rfl, rfl⟩, rfl⟩ := isFields
    exact ⟨_, _, (Settings.mk capacity name).fills spelled⟩

theorem refuses : record.Refuses Misfit := by
  intro field own draft cs flaw misfit
  simp only [record, List.mem_cons, List.not_mem_nil, or_false] at own
  generalize key : field.name = name at misfit
  rcases own with rfl | rfl
  · replace key : "initial_capacity" = name := key
    refine Json.Field.read_of_error ?_ draft
    cases misfit with
    | capacity foreign => exact Json.readInt_of_foreign (by decide) foreign
    | @negative n _ above below delimited =>
      have word : Json.isWord n = true := Json.isWord_iff.mpr ⟨above, by omega⟩
      exact Json.readInt_of_outside (by decide) word (by omega) delimited
    | name => exact absurd key (by decide)
  · replace key : "name" = name := key
    cases misfit with
    | name foreign => exact Json.Field.read_of_error (Json.readString_of_foreign foreign) draft
    | capacity | negative => exact absurd key (by decide)

theorem ofJson_of_firstFlaw {text : String} {flaw : Json.Flaw}
    (first : Json.FirstFlaw schema Misfit text.toList flaw) :
    (Snapshot.ofJson text : Except Json.Flaw Settings) = .error flaw :=
  Snapshot.ofJson_of_error (Json.Record.read_of_firstFlaw follows refuses first)

theorem build_of_large {α : Type} {s : Settings} (large : 0x8000000000000000 ≤ s.capacity.val) :
    (s.build : Except CapacityOverflow (Stack α)) = .error {} := if_neg (Int.not_lt.mpr large)

section Steps

variable {α : Type} [Item α] {s : Settings} (large : 0x8000000000000000 ≤ s.capacity.val)

include large

theorem session_perform_of_large (x : Session α) : x.perform (.build s) = ⟨x, .failed (.overflow {}), []⟩ := by
  rw [Session.perform, Session.makeFrom, build_of_large large]
  rfl

theorem pool_perform_of_large (p : Pool α) : p.perform (.build s) = ⟨p, .failed (.overflow {}), []⟩ := by
  rw [Pool.perform, build_of_large large]
  rfl

end Steps

/-- Any part restores, whatever the capacity; equal texts mean equal settings; a field that comes twice or is
`null` is refused; and where the capacity is too large, building fails and changes nothing. -/
theorem restores_then_builds (s : Settings) :
    (∀ given, ∀ text : String, Json.Surrounded (s.SpellsPart given) text.toList →
      Snapshot.ofJson text = .ok (s.keep given)) ∧
    Snapshot.ofJson (Snapshot.toJson s) = .ok s ∧
    (∀ t : Settings, Snapshot.toJson s = Snapshot.toJson t ↔ s = t) ∧
    (∀ text : String, ∀ flaw, Json.FirstFlaw schema Misfit text.toList flaw →
      (Snapshot.ofJson text : Except Json.Flaw Settings) = .error flaw) ∧
    (0x8000000000000000 ≤ s.capacity.val → ∀ (α : Type) [Item α],
      (∀ x : Session α, x.perform (.build s) = ⟨x, .failed (.overflow {}), []⟩) ∧
      ∀ p : Pool α, p.perform (.build s) = ⟨p, .failed (.overflow {}), []⟩) := by
  refine ⟨?_, s.ofJson_toJson_eq, fun _ => toJson_inj, fun _ _ => ofJson_of_firstFlaw, ?_⟩
  · exact fun given text spelled => s.ofJson_of_part given spelled
  · exact fun large _ _ => ⟨session_perform_of_large large, pool_perform_of_large large⟩

theorem restores_then_builds_large :
    let s : Settings := ⟨⟨0x8000000000000000, by decide, by decide⟩, ""⟩
    let text := "\x7b\"u\":[], \"initial_capacity\":9223372036854775808\x7d"
    Json.Surrounded (s.SpellsPart (· = "initial_capacity")) text.toList ∧
      Snapshot.ofJson text = .ok (⟨s.capacity, "stackView"⟩ : Settings) ∧
      Json.FirstFlaw schema Misfit "\x7b\"name\":null,".toList .wrongType ∧
      (Snapshot.ofJson "\x7b\"name\":null," : Except Json.Flaw Settings) = .error .wrongType ∧
      0x8000000000000000 ≤ s.capacity.val ∧
      (Session.start : Session Bool).perform (.build s) = ⟨Session.start, .failed (.overflow {}), []⟩ := by
  intro s text
  have none := Json.blank_nil
  have space : Json.Blank [' '] := by simp [Json.Blank]
  have large : 0x8000000000000000 ≤ s.capacity.val := Int.le_refl _
  let digits := "9223372036854775808".toList
  have written : Decimal.write s.capacity.val = digits := by decide +kernel
  have isNull : Json.Shape.null.Spells Json.writeNull := rfl
  have spelled : Json.Surrounded (s.SpellsPart (· = "initial_capacity")) text.toList := by
    have value : Json.IsValue ['[', ']'] := .list (List.forall_mem_nil _) (.empty none)
    have members : List.Forall₂ Json.SpellsMember [("u", ['[', ']']), ("initial_capacity", digits)]
        [Json.writeMember "u" ['[', ']'], Json.writeMember "initial_capacity" digits] :=
      .cons (Json.spellsMember_writeMember _) (.cons (Json.spellsMember_writeMember _) .nil)
    have enclosed : Json.Enclosed '\x7b' '\x7d' [Json.writeMember "u" ['[', ']'],
        Json.writeMember "initial_capacity" digits] _ := .filled none (.cons none space (.nil none))
    have given : (s.fields (Json.Text.quote "")).filter (fun m => m.1 = "initial_capacity") =
        [("initial_capacity", digits)] := by simp [fields, written]
    have part : Json.SpellsPart (s.fields (Json.Text.quote "")) [("initial_capacity", digits)] _ :=
      .object (by simp [fields, written]) (by simp [fields]) (by simp [fields, value]) members enclosed
    rw [← given] at part
    refine ⟨[], _, [], none, none, ⟨_, Json.Text.spellsString_quote "", part⟩, ?_⟩
    decide +kernel
  have null : Json.FirstFlaw schema Misfit "\x7b\"name\":null,".toList .wrongType :=
    .member (.nil schema) .nil (.nil none) (by simp [schema]) (by simp) (Json.spellsMember_writeMember ("name", _))
      (.name ⟨.null, _, _, by decide, isNull, Json.delimited_comma [], rfl⟩)
  obtain ⟨restores, _, _, refuses, builds⟩ := restores_then_builds s
  exact ⟨spelled, restores _ _ spelled, null, refuses _ _ null, large, (builds large Bool).1 _⟩

end CountedStack.Settings
