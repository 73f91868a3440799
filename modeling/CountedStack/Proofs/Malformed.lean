import CountedStack.Proofs.Json.FirstFlaw
import CountedStack.Proofs.Json.Refusal
import CountedStack.Proofs.RoundTrip

namespace CountedStack

namespace Depth

def schema : Json.Schema := [("value", fun text => ∃ n : Count, text = Decimal.write n.val)]

/-- A value that is no integer, or an integer that only an unsigned word holds. -/
inductive Misfit : String → List Char → Json.Flaw → Prop where
  | value {cs : List Char} : Json.Foreign [.integer] cs → Misfit "value" cs .wrongType
  | tooLarge {n : Int} {rest : List Char} : 0x8000000000000000 ≤ n → n ≤ 0xffffffffffffffff →
      Json.Delimited rest → Misfit "value" (Decimal.write n ++ rest) .outOfRange

theorem follows : record.Follows schema :=
  have : Nonempty Count := ⟨Count.ofInt 0⟩
  Json.Record.follows_of_single Depth.mk rfl rfl rfl Json.readsBack_int

theorem needsAll : record.NeedsAll := by
  intro draft
  refine List.forall_mem_singleton.mpr ?_
  intro unset
  cases draft with
  | none => rfl
  | some n => cases unset

theorem refuses : record.Refuses Misfit := by
  refine List.forall_mem_singleton.mpr ?_
  intro draft cs flaw misfit
  refine Json.Field.read_of_error ?_ draft
  cases misfit with
  | value foreign => exact Json.readInt_of_foreign (by decide) foreign
  | @tooLarge n _ above below delimited =>
    have word : Json.isWord n = true := Json.isWord_iff.mpr ⟨by omega, below⟩
    exact Json.readInt_of_outside (by decide) word (by omega) delimited

end Depth

namespace Stack

variable {α : Type}

def schema (spells : α → List Char → Prop) : Json.Schema := [
  ("name", fun text => ∃ name, Json.Text.SpellsString name text),
  ("inner", fun text => ∃ items, Json.SpellsList spells items text),
  ("depth", fun text => ∃ depth : Depth, depth.Spells text)]

/-- A value of another type than the field has, or a depth with a flaw of its own. -/
inductive Misfit : String → List Char → Json.Flaw → Prop where
  | name {cs : List Char} : Json.Foreign [.string] cs → Misfit "name" cs .wrongType
  | inner {cs : List Char} : Json.Foreign [.list] cs → Misfit "inner" cs .wrongType
  | depth {cs : List Char} : Json.Foreign [.object, .list] cs → Misfit "depth" cs .wrongType
  | within {cs : List Char} {flaw : Json.Flaw} : Json.Flawed Depth.schema Depth.Misfit cs flaw →
      Misfit "depth" cs flaw

section Items

variable [Snapshot α]

theorem needsAll : (record (α := α)).NeedsAll := by
  rintro ⟨name, items, depth⟩ field own unset
  simp only [record, List.mem_cons, List.not_mem_nil, or_false] at own
  rcases own with rfl | rfl | rfl
  · obtain rfl : name = none := by simpa [Json.Field.of] using unset
    rfl
  · obtain rfl : items = none := by simpa [Json.Field.of] using unset
    cases name <;> rfl
  · obtain rfl : depth = none := by simpa [Json.Field.of] using unset
    cases name <;> cases items <;> rfl

theorem refuses : (record (α := α)).Refuses Misfit := by
  intro field own draft cs flaw misfit
  simp only [record, List.mem_cons, List.not_mem_nil, or_false] at own
  generalize key : field.name = name at misfit
  rcases own with rfl | rfl | rfl
  · replace key : "name" = name := key
    cases misfit with
    | name foreign => exact Json.Field.read_of_error (Json.readString_of_foreign foreign) draft
    | inner | depth | within => exact absurd key (by decide)
  · replace key : "inner" = name := key
    cases misfit with
    | inner foreign => exact Json.Field.read_of_error (Json.readList_of_foreign Snapshot.read foreign) draft
    | name | depth | within => exact absurd key (by decide)
  · replace key : "depth" = name := key
    refine Json.Field.read_of_error ?_ draft
    cases misfit with
    | depth foreign => exact Json.Record.read_of_foreign Depth.record foreign
    | within flawed => exact Json.Record.read_of_flawed Depth.follows Depth.refuses Depth.needsAll flawed
    | name | inner => exact absurd key (by decide)

variable {spells : α → List Char → Prop} {norm : α → α}
  (h : Json.ReadsBack spells Snapshot.write Snapshot.read norm)

include h

theorem follows : (record (α := α)).Follows (schema spells) where
  inhabited := by
    have name : ∃ text s, Json.Text.SpellsString s text := ⟨_, "", Json.Text.spellsString_quote ""⟩
    have inner : ∃ text items, Json.SpellsList spells items text := ⟨_, [], (Json.readsBack_list h).written []⟩
    have depth : ∃ text, ∃ depth : Depth, depth.Spells text := ⟨_, {}, Depth.readsBack.written {}⟩
    simp only [schema, List.forall_mem_cons]
    exact ⟨name, inner, depth, by simp⟩
  fills := by
    intro fields isFields
    simp only [schema, List.forall₂_cons_left_iff, List.forall₂_nil_left_iff] at isFields
    obtain ⟨⟨_, _⟩, _, ⟨rfl, name, spelledName⟩, ⟨⟨_, _⟩, _, ⟨rfl, items, spelledItems⟩,
      ⟨⟨_, _⟩, _, ⟨rfl, depth, spelledDepth⟩, rfl, rfl⟩, rfl⟩, rfl⟩ := isFields
    have bottomUp : Stack.bottomUp ⟨name, items.reverse, depth⟩ = items := List.reverse_reverse items
    exact ⟨_, _, fills h ⟨name, items.reverse, depth⟩ spelledName (bottomUp.symm ▸ spelledItems) spelledDepth⟩

end Items

/-- The first flaw decides, whatever stands behind it. -/
theorem ofJson_of_flawed {k : Kind} (free : k.floatFree = true) {text : String} {flaw : Json.Flaw}
    (flawed : Json.Flawed (schema k.Spells) Misfit text.toList flaw) :
    (Snapshot.ofJson text : Except Json.Flaw (Stack k.Value)) = .error flaw :=
  Snapshot.ofJson_of_error (Json.Record.read_of_flawed (follows (k.readsBack free)) refuses needsAll flawed)

/-- A name that comes again, a depth that is too large and a name that is missing, with unfinished texts behind. -/
theorem ofJson_of_flawed_unfinished :
    let k := Kind.list .text
    let Flawed (text : String) := Json.Flawed (schema k.Spells) Misfit text.toList
    let ofJson (text : String) : Except Json.Flaw (Stack k.Value) := Snapshot.ofJson text
    k.floatFree = true ∧
      (Flawed "\x7b\"x\":[],\"name\":\"a\", \"name\"!" (.duplicateField "name") ∧
        ofJson "\x7b\"x\":[],\"name\":\"a\", \"name\"!" = .error (.duplicateField "name")) ∧
      (Flawed "\x7b\"depth\":\x7b\"value\":9223372036854775808,\"value\":1" .outOfRange ∧
        ofJson "\x7b\"depth\":\x7b\"value\":9223372036854775808,\"value\":1" = .error .outOfRange) ∧
      (Flawed "\x7b\"inner\":[[]]\x7d\"" (.missingField "name") ∧
        ofJson "\x7b\"inner\":[[]]\x7d\"" = .error (.missingField "name")) := by
  intro k Flawed ofJson
  have none := Json.blank_nil
  have member := Json.spellsMember_writeMember
  have again : Flawed "\x7b\"x\":[],\"name\":\"a\", \"name\"!" (.duplicateField "name") := by
    have value : Json.IsValue ['[', ']'] := .list (List.forall_mem_nil _) (.empty none)
    have name : ∃ s, Json.Text.SpellsString s (Json.Text.quote "a") := ⟨"a", Json.Text.spellsString_quote "a"⟩
    have begun : Json.Begun (schema k.Spells) [("x", ['[', ']']), ("name", Json.Text.quote "a")] :=
      ⟨by simp [schema, name], by simp [schema, value], by simp [schema]⟩
    have spelled := List.Forall₂.cons (member ("x", ['[', ']'])) (.cons (member ("name", Json.Text.quote "a")) .nil)
    have space : Json.Blank [' '] := by simp [Json.Blank]
    have leads : Json.Leads [Json.writeMember "x" ['[', ']'], Json.writeMember "name" (Json.Text.quote "a")] _ :=
      .cons none none (.cons none none (.nil space))
    exact .first (.repeated begun spelled leads (by simp [schema]) (by simp) (Json.Text.spellsString_quote "name"))
  have large : Flawed "\x7b\"depth\":\x7b\"value\":9223372036854775808,\"value\":1" .outOfRange := by
    have misfit := Depth.Misfit.tooLarge (n := 0x8000000000000000) (by decide) (by decide)
      (Json.delimited_comma "\"value\":1".toList)
    have within := Json.FirstFlaw.member (Json.Begun.nil Depth.schema) .nil (.nil none) (by simp [Depth.schema])
      (by simp) (member ("value", _)) misfit
    exact .first (.member (.nil _) .nil (.nil none) (by simp [schema]) (by simp) (member ("depth", _))
      (.within (.first within)))
  have missing : Flawed "\x7b\"inner\":[[]]\x7d\"" (.missingField "name") := by
    have items : ∃ items, Json.SpellsList k.Spells items "[[]]".toList :=
      ⟨[[]], (Json.readsBack_list (k.readsBack rfl)).written [[]]⟩
    have begun : Json.Begun (schema k.Spells) [("inner", "[[]]".toList)] :=
      ⟨by simpa [schema] using items, by simp [schema], by simp [schema]⟩
    exact .missing begun (.cons (member ("inner", "[[]]".toList)) .nil) (.filled none (.nil none)) rfl
  exact ⟨rfl, ⟨again, ofJson_of_flawed rfl again⟩, ⟨large, ofJson_of_flawed rfl large⟩,
    ⟨missing, ofJson_of_flawed rfl missing⟩⟩

end Stack

end CountedStack
