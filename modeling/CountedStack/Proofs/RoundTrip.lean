import CountedStack.Stack
import CountedStack.Proofs.Collapse

/-!
Snapshots come back, in every spelling. Nothing is asked of the stack: the depth need not agree with the number of
items, and the items need not be present.
-/

namespace CountedStack

/-- The text of a value, with blanks around it. -/
def Json.Surrounded (spells : List Char → Prop) (text : List Char) : Prop :=
  ∃ before inside behind, Blank before ∧ Blank behind ∧ spells inside ∧ text = before ++ (inside ++ behind)

section Whole

variable {α : Type} [Snapshot α]

theorem Snapshot.ofJson_of_error {text : String} {flaw : Json.Flaw}
    (refused : (Snapshot.read text.toList : Except Json.Flaw (α × List Char)) = .error flaw) :
    (ofJson text : Except Json.Flaw α) = .error flaw := by
  rw [ofJson, Json.Reader.whole, refused]

theorem Snapshot.surrounded_of_spells {spells : List Char → Prop} {x : α} (spelled : spells (Snapshot.write x)) :
    Json.Surrounded spells (toJson x).toList := by
  refine ⟨[], write x, [], Json.blank_nil, Json.blank_nil, spelled, ?_⟩
  rw [toJson, String.toList_ofList, List.append_nil, List.nil_append]

theorem Snapshot.ofJson_of_reads (blanks : Json.PassesBlanks (Snapshot.read (α := α))) {spells : List Char → Prop}
    {x : α} (reads : ∀ {text}, spells text → Json.Reads Snapshot.read text x) {text : String}
    (spelled : Json.Surrounded spells text.toList) : ofJson text = .ok x := by
  obtain ⟨before, inside, behind, blank, blank', spelled, written⟩ := spelled
  have rest : Json.Delimited behind := by
    rw [← List.append_nil behind]
    exact Json.delimited_append blank' Json.delimited_nil
  have empty : Json.skipBlanks behind = [] := by
    rw [← List.append_nil behind, Json.skipBlanks_append blank']
    rfl
  have taken : read text.toList = .ok (x, behind) := by
    rw [written, blanks.read_append blank, reads spelled behind rest]
  rw [ofJson, Json.Reader.whole, taken]
  exact if_pos empty

variable {spells : α → List Char → Prop} {norm : α → α}
  (h : Json.ReadsBack spells Snapshot.write Snapshot.read norm)

include h

theorem Snapshot.surrounded_toJson (x : α) : Json.Surrounded (spells x) (toJson x).toList :=
  surrounded_of_spells (h.written x)

theorem Snapshot.ofJson_of_readsBack {x : α} {text : String} (spelled : Json.Surrounded (spells x) text.toList) :
    ofJson text = .ok (norm x) :=
  ofJson_of_reads h.blanks h.reads spelled

theorem Snapshot.ofJson_toJson_of_readsBack (x : α) : ofJson (toJson x) = .ok (norm x) :=
  ofJson_of_readsBack h (surrounded_toJson h x)

end Whole

namespace Depth

def Spells (d : Depth) : List Char → Prop := Json.SpellsRecord [("value", Decimal.write d.value.val)]

theorem readsBack : Json.ReadsBack Spells Snapshot.write Snapshot.read (fun d => d) where
  blanks := record.passesBlanks
  written _ := Json.spellsRecord_writeObject _
  opens spelled := .inr ⟨spelled.opens, (Json.spellsRecord_writeObject _).opens⟩
  reads spelled := (Json.Record.fills_of_single Depth.mk rfl rfl rfl Json.readsBack_int rfl).reads spelled
  write_norm _ := rfl

end Depth

namespace Stack

section Items

variable {α : Type}

def Spells (spells : α → List Char → Prop) (s : Stack α) (text : List Char) : Prop :=
  ∃ name items depth, Json.Text.SpellsString s.name name ∧ Json.SpellsList spells s.bottomUp items ∧
    s.depth.Spells depth ∧ Json.SpellsRecord [("name", name), ("inner", items), ("depth", depth)] text

variable [Snapshot α] {spells : α → List Char → Prop} {norm : α → α}
  (h : Json.ReadsBack spells Snapshot.write Snapshot.read norm)

include h

theorem fills (s : Stack α) {name items depth : List Char} (spelledName : Json.Text.SpellsString s.name name)
    (spelledItems : Json.SpellsList spells s.bottomUp items) (spelledDepth : s.depth.Spells depth) :
    (record (α := α)).Fills
      (fun seen => ⟨if "name" ∈ seen then some s.name else none,
        if "inner" ∈ seen then some (s.bottomUp.map norm) else none,
        if "depth" ∈ seen then some s.depth else none⟩)
      [("name", name), ("inner", items), ("depth", depth)] { s with items := s.items.map norm } where
  distinct := by simp
  empty := rfl
  each := by
    refine .cons (Json.Field.fills_of Json.readsBack_string spelledName ?_ ?_)
      (.cons (Json.Field.fills_of (Json.readsBack_list h) spelledItems ?_ ?_)
        (.cons (Json.Field.fills_of Depth.readsBack spelledDepth ?_ ?_) .nil))
    all_goals
      intro seen
      simp
  build seen all := by
    have name := all "name" (by simp)
    have inner := all "inner" (by simp)
    have depth := all "depth" (by simp)
    simp [record, Draft.build, name, inner, depth, bottomUp]

theorem readsBack :
    Json.ReadsBack (Spells spells) (Snapshot.write (α := Stack α)) Snapshot.read
      (fun s => { s with items := s.items.map norm }) where
  blanks := (record (α := α)).passesBlanks
  written s := ⟨_, _, _, Json.Text.spellsString_quote s.name, (Json.readsBack_list h).written s.bottomUp,
    Depth.readsBack.written s.depth, Json.spellsRecord_writeObject _⟩
  opens := by
    rintro s text ⟨_, _, _, _, _, _, spelled⟩
    exact .inr ⟨spelled.opens, (Json.spellsRecord_writeObject _).opens⟩
  reads := by
    rintro s text ⟨_, _, _, name, items, depth, spelled⟩
    exact (fills h s name items depth).reads spelled
  write_norm s := by
    have items : (s.items.map norm).reverse = s.items.reverse.map norm := List.map_reverse.symm
    have text : Json.writeList Snapshot.write (s.items.map norm).reverse =
        Json.writeList Snapshot.write s.items.reverse := by
      rw [items]
      exact (Json.readsBack_list h).write_norm s.items.reverse
    simp only [Snapshot.write, bottomUp, text]

end Items

variable {k : Kind}

theorem beq_eq_true_iff {α : Type} [BEq α] [LawfulBEq α] (s t : Stack α) : (s == t) = true ↔ s = t := by
  show (s.name = t.name && s.items == t.items && s.depth = t.depth) = true ↔ s = t
  simp only [Bool.and_eq_true, decide_eq_true_eq, beq_iff_eq]
  cases s
  cases t
  simp [and_assoc]

/-- Restoring a snapshot gives the same name and depth and the collapsed items, so the very same stack
where nothing is hidden; and a snapshot of the result is the same text. -/
theorem ofJson_toJson (free : k.floatFree = true) (s : Stack k.Value) :
    ∃ t : Stack k.Value, Snapshot.ofJson (Snapshot.toJson s) = .ok t ∧
      t.name = s.name ∧ t.depth = s.depth ∧ t.size = s.size ∧ t.bottomUp = s.bottomUp.map k.collapse ∧
      (t = s ↔ ∀ x ∈ s.items, k.hidesNull x = false) ∧
      ((t == s) = true ↔ ∀ x ∈ s.items, k.hidesNull x = false) ∧
      Snapshot.toJson t = Snapshot.toJson s := by
  have back := readsBack (k.readsBack free)
  have same : ({ s with items := s.items.map k.collapse } : Stack k.Value) = s ↔
      ∀ x ∈ s.items, k.hidesNull x = false :=
    calc ({ s with items := s.items.map k.collapse } : Stack k.Value) = s
        ↔ s.items.map k.collapse = s.items := ⟨congrArg Stack.items, fun same => by rw [same]⟩
      _ ↔ s.items.any k.hidesNull = false := Kind.map_eq_self_iff k.collapse_eq_self_iff s.items
      _ ↔ ∀ x ∈ s.items, k.hidesNull x = false := by simp
  have lawful := k.lawfulBEq free
  refine ⟨{ s with items := s.items.map k.collapse }, Snapshot.ofJson_toJson_of_readsBack back s, rfl, rfl,
    List.length_map _, ?_, same, ?_, ?_⟩
  · exact List.map_reverse.symm
  · exact (beq_eq_true_iff _ _).trans same
  · exact congrArg String.ofList (back.write_norm s)

/-- A hidden `null` comes back as `none`; what needs an escape comes back as it was. -/
theorem ofJson_toJson_hidden_null :
    (Kind.option (.option .text)).floatFree = true ∧
      ∃ t : Stack (Kind.option (.option .text)).Value,
        Snapshot.ofJson (Snapshot.toJson
          (⟨"a\"b", [some none, some (some "\\\t\x01é")], ⟨Count.ofInt (-4)⟩⟩ :
            Stack (Kind.option (.option .text)).Value)) = .ok t ∧
          t.bottomUp = [some (some "\\\t\x01é"), none] := by
  obtain ⟨t, restored, _, _, _, items, _⟩ := ofJson_toJson (k := .option (.option .text)) rfl
    ⟨"a\"b", [some none, some (some "\\\t\x01é")], ⟨Count.ofInt (-4)⟩⟩
  exact ⟨rfl, t, restored, items⟩

/-- Every spelling of a stack restores to the stack with its items collapsed, and the compact text is one of
the spellings. -/
theorem ofJson_of_spelling (free : k.floatFree = true) (s : Stack k.Value) :
    let t : Stack k.Value := { s with items := s.items.map k.collapse }
    Snapshot.ofJson (Snapshot.toJson s) = .ok t ∧
      Json.Surrounded (s.Spells k.Spells) (Snapshot.toJson s).toList ∧
      ∀ text : String, Json.Surrounded (s.Spells k.Spells) text.toList → Snapshot.ofJson text = .ok t := by
  have back := readsBack (k.readsBack free)
  have compact := Snapshot.surrounded_toJson back s
  refine ⟨Snapshot.ofJson_of_readsBack back compact, compact, ?_⟩
  exact fun text spelled => Snapshot.ofJson_of_readsBack back spelled

/-- The fields in another order, members that are no fields, the depth as a list, blanks and escapes. -/
theorem ofJson_of_spelling_reordered :
    let k : Kind := .list (.option .view)
    let s : Stack k.Value := ⟨"😀/", [[some ⟨7, by decide, by decide⟩, none]], ⟨Count.ofInt 2⟩⟩
    let text := "\x7b\"depth\":[2],\"x\":[1e5,\x7b\x7d],\"inner\" :[[\x7b\"id\":7,\"z\":null\x7d,null]]," ++
      "\"n\\u0061me\":\"\\ud83d\\uDE00\\/\"\x7d\n"
    k.floatFree = true ∧ Json.Surrounded (s.Spells k.Spells) text.toList ∧
      Snapshot.ofJson text = .ok s ∧ Snapshot.ofJson (Snapshot.toJson s) = .ok s := by
  intro k s text
  let name := "\"\\ud83d\\uDE00\\/\"".toList
  let view := "\x7b\"id\":7,\"z\":null\x7d".toList
  let inside := "[\x7b\"id\":7,\"z\":null\x7d,null]".toList
  let items := "[[\x7b\"id\":7,\"z\":null\x7d,null]]".toList
  let depth := "[2]".toList
  let other := "[1e5,\x7b\x7d]".toList
  have none := Json.blank_nil
  have space : Json.Blank [' '] := by simp [Json.Blank]
  have digit (n : Nat) (small : n < 16) : Json.Text.HexDigit n (Nat.digitChar n) := ⟨small, .inl rfl⟩
  have upper (n : Nat) (small : n < 16) : Json.Text.HexDigit n (Nat.digitChar n).toUpper := ⟨small, .inr rfl⟩
  have isName : Json.Text.SpellsString "😀/" name := by
    have smile : Json.Text.SpellsChar '😀' "\\ud83d\\uDE00".toList := .pair (by decide)
      (.mk (digit 13 (by decide)) (digit 8 (by decide)) (digit 3 (by decide)) (digit 13 (by decide)) rfl)
      (.mk (upper 13 (by decide)) (upper 14 (by decide)) (digit 0 (by decide)) (digit 0 (by decide)) rfl)
    exact ⟨"\\ud83d\\uDE00\\/".toList, .cons smile (.cons (.short (.tail _ (.tail _ (.head _)))) .nil), rfl⟩
  have isView : View.Spells ⟨7, by decide, by decide⟩ view := by
    have id := Json.spellsMember_writeMember ("id", ['7'])
    have extra := Json.spellsMember_writeMember ("z", Json.writeNull)
    refine .object (.refl _) ?_ (.cons id (.cons extra .nil)) (.filled none (.cons none none (.nil none)))
    simp [Json.writeNull, Json.IsValue.null]
  have isItems : Json.SpellsList k.Spells s.bottomUp items := by
    refine ⟨[inside], .cons ⟨[view, Json.writeNull], ?_, ?_⟩ .nil, .filled none (.nil none)⟩
    · exact .cons isView (.cons rfl .nil)
    · exact .filled none (.cons none none (.nil none))
  have isDepth : Depth.Spells ⟨Count.ofInt 2⟩ depth := .list (.filled none (.nil none))
  have isOther : Json.IsValue other := by
    have run (d : Char) (h : d.isDigit = true) : Json.Number.Digits [d] := ⟨by simp, List.forall_mem_singleton.mpr h⟩
    have one : Json.Number.IsWhole ['1'] := ⟨run '1' rfl, fun zero => absurd zero (by decide)⟩
    have number : Json.Number.IsNumber "1e5".toList :=
      .mk (.inl rfl) one .none (.some (.inl rfl) (.inl rfl) (run '5' rfl))
    have empty : Json.IsValue "\x7b\x7d".toList := .object (by simp) (by simp) .nil (.empty none)
    have enclosed : Json.Enclosed '[' ']' ["1e5".toList, "\x7b\x7d".toList] other :=
      .filled none (.cons none none (.nil none))
    exact .list (List.forall_mem_cons.mpr ⟨.number number, List.forall_mem_singleton.mpr empty⟩) enclosed
  have isKey : Json.Text.SpellsString "name" "\"n\\u0061me\"".toList := by
    have plain (c : Char) (h : 0x20 ≤ c.toNat ∧ c ≠ '"' ∧ c ≠ '\\') : Json.Text.SpellsChar c [c] := .plain h
    have unit : Json.Text.SpellsChar 'a' "\\u0061".toList := .unit
      (.mk (digit 0 (by decide)) (digit 0 (by decide)) (digit 6 (by decide)) (digit 1 (by decide)) rfl)
    have ending : Json.Text.SpellsChars ['m', 'e'] ['m', 'e'] :=
      .cons (plain 'm' (by decide)) (.cons (plain 'e' (by decide)) .nil)
    exact ⟨"n\\u0061me".toList, .cons (plain 'n' (by decide)) (.cons unit ending), rfl⟩
  have members : List.Forall₂ Json.SpellsMember [("depth", depth), ("x", other), ("inner", items), ("name", name)]
      [Json.writeMember "depth" depth, Json.writeMember "x" other, Json.Text.quote "inner" ++ ' ' :: ':' :: items,
        "\"n\\u0061me\"".toList ++ ':' :: name] := by
    have first := Json.spellsMember_writeMember ("depth", depth)
    have second := Json.spellsMember_writeMember ("x", other)
    refine .cons first (.cons second (.cons ?_ (.cons ?_ .nil)))
    · exact ⟨_, Json.Text.spellsString_quote "inner", [' '], [], space, none, rfl⟩
    · exact ⟨_, isKey, [], [], none, none, rfl⟩
  have record {texts : List (List Char)} {text : List Char} (enclosed : Json.Enclosed '\x7b' '\x7d' texts text)
      (spelled : List.Forall₂ Json.SpellsMember [("depth", depth), ("x", other), ("inner", items), ("name", name)]
        texts) : Json.SpellsRecord [("name", name), ("inner", items), ("depth", depth)] text := by
    refine .object ?_ ?_ spelled enclosed
    · exact List.reverse_perm [("name", name), ("inner", items), ("depth", depth)]
    · simp [isOther]
  have spelled : Json.Surrounded (s.Spells k.Spells) text.toList := by
    have enclosed := record (Json.enclosed_intercalate '\x7b' '\x7d' _) members
    refine ⟨[], _, ['\n'], none, ?_, ⟨name, items, depth, isName, isItems, isDepth, enclosed⟩, ?_⟩
    · simp [Json.Blank]
    · decide +kernel
  obtain ⟨compact, _, all⟩ := ofJson_of_spelling rfl s
  exact ⟨rfl, spelled, all text spelled, compact⟩

end Stack

end CountedStack
