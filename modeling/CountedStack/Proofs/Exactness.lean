import CountedStack.Proofs.Defaults
import CountedStack.Proofs.Json.Completion

/-!
An integer is restored as it is written, or it is refused: at every `Place` of the text where one is due, whatever
stands before it and behind it.
-/

namespace CountedStack

namespace Snapshot

variable {α : Type} [Snapshot α]

/-- The text restores to a value that holds the integer; what restoring it leads to is told by `restores`. -/
def Holds (integer? : α → Option Int) (restores : String → α → Prop) (text : String) (n : Int) : Prop :=
  ∃ x : α, ofJson text = .ok x ∧ integer? x = some n ∧ restores text x

/-- What becomes of an integer behind `lead`, where the bounds are `lo` and `hi`. Within them every text that
restores holds it, all that is spelled in full restores, and some text does; outside them the text is refused. -/
def Exact (spells : α → List Char → Prop) (integer? : α → Option Int) (lo hi : Int) (lead : List Char)
    (restores : String → α → Prop) (refuses : String → Json.Flaw → Prop) : Prop :=
  ∀ (blanks rest : List Char) (n : Int), Json.Blank blanks → Json.Delimited rest → n.natAbs < 10 ^ 300 →
    let text (rest : List Char) := String.ofList (blanks ++ (lead ++ (Decimal.write n ++ rest)))
    if lo ≤ n ∧ n ≤ hi then
      (∃ m : Bounded lo hi, m.val = n ∧ Json.readInt lo hi (Decimal.write n ++ rest) = .ok (m, rest)) ∧
      (∀ x : α, ofJson (text rest) = .ok x → integer? x = some n ∧ restores (text rest) x) ∧
      (∀ x, Json.Surrounded (spells x) (text rest).toList → Holds integer? restores (text rest) n) ∧
      ∃ tail, Json.Delimited tail ∧ Holds integer? restores (text tail) n
    else
      let flaw := if -0x8000000000000000 ≤ n ∧ n ≤ 0xffffffffffffffff then .outOfRange else .wrongType
      (ofJson (text rest) : Except Json.Flaw α) = .error flaw ∧ refuses (text rest) flaw

theorem exists_read_of_ofJson {text : String} {x : α} (restored : ofJson text = .ok x) :
    ∃ rest, Snapshot.read text.toList = .ok (x, rest) := by
  rw [ofJson, Json.Reader.whole] at restored
  split at restored
  · cases restored
  · rename_i y rest taken
    split at restored
    · cases restored
      exact ⟨rest, taken⟩
    · cases restored

variable {spells : α → List Char → Prop} {integer? : α → Option Int} {lo hi : Int} {lead : List Char}
  {restores : String → α → Prop} {refuses : String → Json.Flaw → Prop}

theorem exact_of_within (words : Json.isWord lo = true ∧ Json.isWord hi = true)
    (passes : Json.PassesBlanks (Snapshot.read (α := α)))
    (within : Json.Within (Json.readInt lo hi) (Snapshot.read (α := α)) lead fun x n => integer? x = some n.val)
    (completes : ∀ n, lo ≤ n → n ≤ hi → ∃ tail x, Json.Delimited tail ∧ spells x (lead ++ (Decimal.write n ++ tail)))
    (readable : ∀ x text, Json.Surrounded (spells x) text.toList → ∃ y : α, ofJson text = .ok y)
    (takes : ∀ text (x : α), ofJson text = .ok x → restores text x)
    (keeps : ∀ text flaw, (ofJson text : Except Json.Flaw α) = .error flaw → refuses text flaw) :
    Exact spells integer? lo hi lead restores refuses := by
  intro blanks rest n blank delimited small text
  have opens (rest : List Char) : Json.Opens (Decimal.write n ++ rest) := (Json.opens_write n).append rest
  have written (rest : List Char) :
      Snapshot.read (α := α) (text rest).toList = Snapshot.read (lead ++ (Decimal.write n ++ rest)) := by
    rw [String.toList_ofList, passes.read_append blank]
  split
  · rename_i bounds
    have taken {rest : List Char} (delimited : Json.Delimited rest) :
        Json.readInt lo hi (Decimal.write n ++ rest) = .ok (⟨n, bounds.1, bounds.2⟩, rest) :=
      Json.readInt_write ⟨n, bounds.1, bounds.2⟩ delimited
    have holds {rest : List Char} (delimited : Json.Delimited rest) {x : α} (restored : ofJson (text rest) = .ok x) :
        integer? x = some n ∧ restores (text rest) x := by
      obtain ⟨_, whole⟩ := exists_read_of_ofJson restored
      have holds := (within.goes (opens rest)).taken (taken delimited) ((written rest).symm.trans whole)
      exact ⟨holds, takes (text rest) x restored⟩
    have spelled_holds {rest : List Char} (delimited : Json.Delimited rest) {x : α}
        (spelled : Json.Surrounded (spells x) (text rest).toList) : Holds integer? restores (text rest) n := by
      obtain ⟨y, restored⟩ := readable x (text rest) spelled
      exact ⟨y, restored, holds delimited restored⟩
    obtain ⟨tail, x, closed, spelled⟩ := completes n bounds.1 bounds.2
    have surrounded : Json.Surrounded (spells x) (text tail).toList :=
      ⟨blanks, _, [], blank, Json.blank_nil, spelled, by rw [String.toList_ofList, List.append_nil]⟩
    refine ⟨⟨_, rfl, taken delimited⟩, fun _ => holds delimited, fun _ => spelled_holds delimited, ?_⟩
    exact ⟨tail, closed, spelled_holds closed surrounded⟩
  · rename_i bounds
    have refused := Json.readInt_write_of_outside words small (by omega) delimited
    have unread := ofJson_of_error ((written rest).trans ((within.goes (opens rest)).refused refused))
    simp only [Json.isWord_iff] at unread
    exact ⟨unread, keeps (text rest) _ unread⟩

section Outcome

variable {text : String} {n : Int} {rest : List Char} (h : Exact spells integer? lo hi lead restores refuses)
  (written : text.toList = lead ++ (Decimal.write n ++ rest)) (delimited : Json.Delimited rest)
  (small : n.natAbs < 10 ^ 300)

include h written delimited small

theorem Exact.holds (bounds : lo ≤ n ∧ n ≤ hi) {x : α} (spelled : Json.Surrounded (spells x) text.toList) :
    Holds integer? restores text n := by
  have outcome := h [] rest n Json.blank_nil delimited small
  dsimp only at outcome
  rw [if_pos bounds, List.nil_append, ← written, String.ofList_toList] at outcome
  exact outcome.2.2.1 x spelled

theorem Exact.refused (outside : ¬(lo ≤ n ∧ n ≤ hi)) :
    refuses text (if -0x8000000000000000 ≤ n ∧ n ≤ 0xffffffffffffffff then .outOfRange else .wrongType) := by
  have outcome := h [] rest n Json.blank_nil delimited small
  dsimp only at outcome
  rw [if_neg outside, List.nil_append, ← written, String.ofList_toList] at outcome
  exact outcome.2

end Outcome

end Snapshot

/-- A record of one integer comes to its end behind any integer within the bounds. -/
theorem Json.Due.exists_single {ρ β : Type} {record : Json.Record ρ β} {key : String} {lo hi : Int}
    (follows : record.Follows [(key, fun text => ∃ m : Bounded lo hi, text = Decimal.write m.val)])
    {lead : List Char} (due : Json.Due [(key, fun text => ∃ m : Bounded lo hi, text = Decimal.write m.val)] key lead)
    {n : Int} (above : lo ≤ n) (below : n ≤ hi) :
    ∃ tail, ∃ m : Bounded lo hi, Json.Delimited tail ∧
      Json.SpellsRecord [(key, Decimal.write m.val)] (lead ++ (Decimal.write n ++ tail)) := by
  have typed : ∃ m : Bounded lo hi, Decimal.write n = Decimal.write m.val := ⟨⟨n, above, below⟩, rfl⟩
  obtain ⟨tail, fields, delimited, isFields, record⟩ := due.exists_record follows List.mem_cons_self typed
  obtain ⟨⟨_, _⟩, _, ⟨rfl, m, rfl⟩, none, rfl⟩ := List.forall₂_cons_left_iff.mp isFields
  cases none
  exact ⟨tail, m, delimited, record⟩

/-! ### Integers of an item -/

namespace View

def schema : Json.Schema := [("id", fun text => ∃ n : Bounded 0 0xffffffff, text = Decimal.write n.val)]

theorem follows : record.Follows schema :=
  have : Nonempty (Bounded 0 0xffffffff) := ⟨Bounded.clamp 0⟩
  Json.Record.follows_of_single View.mk rfl rfl rfl Json.readsBack_int

theorem carries : record.Carries "id" (fun draft => draft) (Json.readInt 0 0xffffffff) View.id :=
  Json.Record.carries_of_single View.mk rfl rfl fun _ => rfl

end View

namespace Kind

/-- The integer at a place of an item: `path` has the indices in the lists around it, from the outside in. -/
def integer? : (k : Kind) → (path : List Nat) → k.Value → Option Int
  | .int _ _, [], n => some (Bounded.val n)
  | .view, [], v => some (View.id v).val
  | .list k, i :: path, xs => Option.bind (show List k.Value from xs)[i]? (k.integer? path)
  | .option k, path, x => Option.bind x (k.integer? path)
  | _, _, _ => none

/-- The text of an item up to where an integer is due: the place of the integer, and its bounds. -/
inductive Place : Kind → List Nat → Int → Int → List Char → Prop where
  | int {lo hi : Int} : Json.isWord lo = true → Json.isWord hi = true → Place (.int lo hi) [] lo hi []
  | view {lead : List Char} : Json.Due View.schema "id" lead → Place .view [] 0 0xffffffff lead
  | list {k : Kind} {xs : List k.Value} {values : List (List Char)} {front lead : List Char} {path : List Nat}
      {lo hi : Int} : List.Forall₂ k.Spells xs values → Json.Leads values front → Place k path lo hi lead →
      Place (.list k) (xs.length :: path) lo hi ('[' :: front ++ lead)
  | option {k : Kind} {lead : List Char} {path : List Nat} {lo hi : Int} : Place k path lo hi lead →
      Place (.option k) path lo hi lead

theorem place_integer {bits : Nat} (fits : bits ≤ 64) :
    (signed bits).Place [] (-Nat.pow 2 (bits - 1)) (Nat.pow 2 (bits - 1) - 1) [] ∧
      (unsigned bits).Place [] 0 (Nat.pow 2 bits - 1) [] := by
  have half : Nat.pow 2 (bits - 1) ≤ Nat.pow 2 63 := Nat.pow_le_pow_right (by decide) (by omega)
  have whole : Nat.pow 2 bits ≤ Nat.pow 2 64 := Nat.pow_le_pow_right (by decide) fits
  have bound : Nat.pow 2 63 = 0x8000000000000000 ∧ Nat.pow 2 64 = 0x10000000000000000 := ⟨rfl, rfl⟩
  constructor
  · exact .int (Json.isWord_iff.mpr ⟨by omega, by omega⟩) (Json.isWord_iff.mpr ⟨by omega, by omega⟩)
  · exact .int (by decide) (Json.isWord_iff.mpr ⟨by omega, by omega⟩)

namespace Place

variable {k : Kind} {path : List Nat} {lo hi : Int} {lead : List Char}

theorem words (place : k.Place path lo hi lead) : Json.isWord lo = true ∧ Json.isWord hi = true := by
  induction place with
  | int lo hi => exact ⟨lo, hi⟩
  | view _ => decide
  | list _ _ _ ih => exact ih
  | option _ ih => exact ih

theorem floatFree (place : k.Place path lo hi lead) : k.floatFree = true := by
  induction place with
  | int _ _ => rfl
  | view _ => rfl
  | list _ _ _ ih => exact ih
  | option _ ih => exact ih

theorem within (place : k.Place path lo hi lead) :
    Json.Within (Json.readInt lo hi) (Snapshot.read (α := k.Value)) lead
      fun x n => k.integer? path x = some n.val := by
  induction place with
  | int _ _ =>
    refine (Json.Within.refl (Json.readInt _ _)).imp ?_
    rintro n _ rfl
    rfl
  | view due =>
    refine (View.carries.within View.follows due).imp ?_
    rintro v _ rfl
    rfl
  | @list k xs values front lead path lo hi spelled leads place ih =>
    have back := k.readsBack place.floatFree
    have starts : ∀ value ∈ values, Json.Starts value := by
      intro value member
      obtain ⟨x, _, spells⟩ := Json.exists_of_mem_right spelled member
      exact back.starts spells
    have flipped : List.Forall₂ (fun text x => k.Spells x text) values xs := spelled.flip
    have reads : List.Forall₂ (Json.Reads Snapshot.read) values (xs.map k.collapse) :=
      List.forall₂_map_right_iff.mpr (flipped.imp fun _ _ => back.reads)
    refine ((Json.within_list back.blanks leads starts reads).trans ih).imp ?_
    rintro all n ⟨x, found, holds⟩
    rw [← spelled.length_eq] at found
    exact (congrArg (Option.bind · (k.integer? path)) found).trans holds
  | @option k lead path lo hi place ih =>
    refine ((Json.within_option Snapshot.read).trans ih).imp ?_
    rintro _ n ⟨x, rfl, holds⟩
    exact holds

theorem exists_item (place : k.Place path lo hi lead) {n : Int} (above : lo ≤ n) (below : n ≤ hi) :
    ∃ tail x, Json.Delimited tail ∧ k.Spells x (lead ++ (Decimal.write n ++ tail)) := by
  induction place with
  | int _ _ => exact ⟨[], ⟨n, above, below⟩, Json.delimited_nil, List.append_nil _⟩
  | @view lead due =>
    obtain ⟨tail, id, delimited, record⟩ := due.exists_single View.follows above below
    exact ⟨tail, ⟨id⟩, delimited, record⟩
  | @list k xs values front lead path lo hi spelled leads place ih =>
    obtain ⟨tail, x, delimited, last⟩ := ih above below
    refine ⟨tail ++ [']'], xs ++ [x], delimited.append (Json.delimited_bracket []), ?_⟩
    have assoc : '[' :: front ++ lead ++ (Decimal.write n ++ (tail ++ [']'])) =
        '[' :: front ++ (lead ++ (Decimal.write n ++ tail) ++ [']']) := by simp
    rw [assoc]
    exact Json.spellsList_concat leads spelled last
  | @option k lead path lo hi place ih =>
    obtain ⟨tail, x, delimited, spelled⟩ := ih above below
    exact ⟨tail, some x, delimited, spelled⟩

end Place

end Kind

/-! ### Integers of a stack -/

namespace Depth

theorem carries : record.Carries "value" id (Json.readInt _ _) Depth.value :=
  Json.Record.carries_of_single Depth.mk rfl rfl fun _ => rfl

variable {lead : List Char} (due : Json.Due schema "value" lead)

include due

theorem within : Json.Within (Json.readInt _ _) (Snapshot.read (α := Depth)) lead (fun d n => d.value = n) :=
  carries.within follows due

theorem exists_depth {n : Int} (above : -0x8000000000000000 ≤ n) (below : n ≤ 0x7fffffffffffffff) :
    ∃ tail d, Json.Delimited tail ∧ Depth.Spells d (lead ++ (Decimal.write n ++ tail)) := by
  obtain ⟨tail, value, delimited, record⟩ := due.exists_single follows above below
  exact ⟨tail, ⟨value⟩, delimited, record⟩

end Depth

namespace Stack

section Items

variable {α : Type} [Snapshot α]

theorem carries_inner : (record (α := α)).Carries "inner" Draft.items Snapshot.read Stack.bottomUp where
  fields := by
    refine ⟨[_], _, [_], rfl, fun _ _ => rfl, ?_⟩
    refine List.forall_mem_cons.mpr ⟨⟨?_, ?_⟩, List.forall_mem_singleton.mpr ⟨?_, ?_⟩⟩
    · exact show "name" ≠ "inner" by decide
    · exact Json.Field.keeps_of _ fun _ _ => rfl
    · exact show "depth" ≠ "inner" by decide
    · exact Json.Field.keeps_of _ fun _ _ => rfl
  build := by
    rintro ⟨name, _, depth⟩ s items rfl built
    cases name with
    | none => cases built
    | some name =>
      cases depth with
      | none => cases built
      | some depth =>
        cases built
        exact List.reverse_reverse items

theorem carries_depth : (record (α := α)).Carries "depth" Draft.depth Snapshot.read Stack.depth where
  fields := by
    refine ⟨[_, _], _, [], rfl, fun _ _ => rfl, ?_⟩
    refine List.forall_mem_cons.mpr ⟨⟨?_, ?_⟩, List.forall_mem_singleton.mpr ⟨?_, ?_⟩⟩
    · exact show "name" ≠ "depth" by decide
    · exact Json.Field.keeps_of _ fun _ _ => rfl
    · exact show "inner" ≠ "depth" by decide
    · exact Json.Field.keeps_of _ fun _ _ => rfl
  build := by
    rintro ⟨name, items, _⟩ s depth rfl built
    cases name with
    | none => cases built
    | some name =>
      cases items with
      | none => cases built
      | some items =>
        cases built
        rfl

end Items

/-- Where an integer stands in a stack: in an item, the index of the item first, or in the depth. -/
inductive Spot where
  | item (path : List Nat)
  | depth

variable {k : Kind}

def integer? (k : Kind) : Spot → Stack k.Value → Option Int
  | .item path, s => (Kind.list k).integer? path s.bottomUp
  | .depth, s => some s.depth.value.val

inductive Place (k : Kind) : Spot → Int → Int → List Char → Prop where
  | item {front lead : List Char} {path : List Nat} {lo hi : Int} : Json.Due (schema k.Spells) "inner" front →
      (Kind.list k).Place path lo hi lead → Place k (.item path) lo hi (front ++ lead)
  | depth {front lead : List Char} : Json.Due (schema k.Spells) "depth" front → Json.Due Depth.schema "value" lead →
      Place k .depth (-0x8000000000000000) 0x7fffffffffffffff (front ++ lead)

theorem Place.words {spot : Spot} {lo hi : Int} {lead : List Char} (place : Place k spot lo hi lead) :
    Json.isWord lo = true ∧ Json.isWord hi = true := by
  cases place with
  | item _ place => exact place.words
  | depth _ _ => decide

theorem Place.within (free : k.floatFree = true) {spot : Spot} {lo hi : Int} {lead : List Char}
    (place : Place k spot lo hi lead) :
    Json.Within (Json.readInt lo hi) (Snapshot.read (α := Stack k.Value)) lead
      fun s n => integer? k spot s = some n.val := by
  have follows := follows (k.readsBack free)
  cases place with
  | item due place =>
    refine ((carries_inner.within follows due).trans place.within).imp ?_
    rintro s n ⟨_, rfl, holds⟩
    exact holds
  | depth due inside =>
    refine ((carries_depth.within follows due).trans (Depth.within inside)).imp ?_
    rintro s n ⟨_, rfl, rfl⟩
    rfl

theorem exists_spells {spells : k.Value → List Char → Prop} {fields : List Json.Member} {text : List Char}
    (isFields : List.Forall₂ Json.IsField (schema spells) fields) (record : Json.SpellsRecord fields text) :
    ∃ s, Stack.Spells spells s text := by
  simp only [schema, List.forall₂_cons_left_iff, List.forall₂_nil_left_iff] at isFields
  obtain ⟨⟨_, _⟩, _, ⟨rfl, name, spelledName⟩, ⟨⟨_, _⟩, _, ⟨rfl, items, spelledItems⟩,
    ⟨⟨_, _⟩, _, ⟨rfl, depth, spelledDepth⟩, rfl, rfl⟩, rfl⟩, rfl⟩ := isFields
  have bottomUp : Stack.bottomUp ⟨name, items.reverse, depth⟩ = items := List.reverse_reverse items
  exact ⟨⟨name, items.reverse, depth⟩, _, _, _, spelledName, bottomUp.symm ▸ spelledItems, spelledDepth, record⟩

theorem exists_stack_of_due (free : k.floatFree = true) {key : String} {front : List Char}
    (due : Json.Due (schema k.Spells) key front) {value : List Char → Prop} (own : (key, value) ∈ schema k.Spells)
    {lead digits tail : List Char} (delimited : Json.Delimited tail) (typed : value (lead ++ (digits ++ tail))) :
    ∃ tail s, Json.Delimited tail ∧ Stack.Spells k.Spells s (front ++ lead ++ (digits ++ tail)) := by
  obtain ⟨tail', fields, delimited', isFields, record⟩ :=
    due.exists_record (follows (k.readsBack free)) own typed
  obtain ⟨s, spelled⟩ := exists_spells isFields record
  have assoc : front ++ lead ++ (digits ++ (tail ++ tail')) = front ++ (lead ++ (digits ++ tail) ++ tail') := by simp
  exact ⟨tail ++ tail', s, delimited.append delimited', assoc ▸ spelled⟩

theorem Place.exists_stack (free : k.floatFree = true) {spot : Spot} {lo hi : Int} {lead : List Char}
    (place : Place k spot lo hi lead) {n : Int} (above : lo ≤ n) (below : n ≤ hi) :
    ∃ tail s, Json.Delimited tail ∧ Stack.Spells k.Spells s (lead ++ (Decimal.write n ++ tail)) := by
  cases place with
  | item due place =>
    obtain ⟨tail, items, delimited, spelled⟩ := place.exists_item above below
    exact exists_stack_of_due free due (.tail _ (.head _)) delimited ⟨items, spelled⟩
  | depth due inside =>
    obtain ⟨tail, d, delimited, spelled⟩ := Depth.exists_depth inside above below
    exact exists_stack_of_due free due (.tail _ (.tail _ (.head _))) delimited ⟨d, spelled⟩

end Stack

theorem Settings.carries : record.Carries "initial_capacity" Draft.capacity (Json.readInt _ _) Settings.capacity where
  fields := by
    refine ⟨[], _, [_], rfl, fun _ _ => rfl, List.forall_mem_singleton.mpr ⟨?_, ?_⟩⟩
    · exact show "name" ≠ "initial_capacity" by decide
    · exact Json.Field.keeps_of _ fun _ _ => rfl
  build := by
    rintro ⟨_, name⟩ s n rfl built
    cases built
    rfl

theorem Settings.exists_settings {lead : List Char} (due : Json.Due schema "initial_capacity" lead) {n : Int}
    (above : 0 ≤ n) (below : n ≤ 0xffffffffffffffff) :
    ∃ tail s, Json.Delimited tail ∧ ∃ given, Settings.SpellsPart s given (lead ++ (Decimal.write n ++ tail)) := by
  have typed : ∃ m : Capacity, Decimal.write n = Decimal.write m.val := ⟨⟨n, above, below⟩, rfl⟩
  obtain ⟨tail, fields, delimited, isFields, record⟩ := due.exists_record follows List.mem_cons_self typed
  simp only [schema, List.forall₂_cons_left_iff, List.forall₂_nil_left_iff] at isFields
  obtain ⟨⟨_, _⟩, _, ⟨rfl, capacity, rfl⟩, ⟨⟨_, _⟩, _, ⟨rfl, name, spelled⟩, rfl, rfl⟩, rfl⟩ := isFields
  exact ⟨tail, ⟨capacity, name⟩, delimited, fun _ => true, _, spelled, record.part⟩

section Targets

variable {text : String} {flaw : Json.Flaw}

theorem Session.perform_restore_of_ok {α : Type} [Item α] {x : Stack α} (restored : Snapshot.ofJson text = .ok x)
    (s : Session α) : s.perform (.restore text) = ⟨s.add x, .made s.slots.length, []⟩ := by
  rw [perform, restored]
  rfl

theorem Session.perform_restore_of_error {α : Type} [Item α]
    (unread : (Snapshot.ofJson text : Except Json.Flaw (Stack α)) = .error flaw) (s : Session α) :
    s.perform (.restore text) = ⟨s, .failed (.unreadable flaw), []⟩ := by
  rw [perform, unread]
  rfl

theorem Depth.perform_restore_of_ok {x : Depth} (restored : Snapshot.ofJson text = .ok x) (d : Depth) :
    d.perform (.restore text) = ⟨x, .done, []⟩ := by
  rw [perform, restored]

theorem Depth.perform_restore_of_error (unread : (Snapshot.ofJson text : Except Json.Flaw Depth) = .error flaw)
    (d : Depth) : d.perform (.restore text) = ⟨d, .unreadable flaw, []⟩ := by
  rw [perform, unread]

theorem Settings.perform_restore_of_ok {x : Settings} (restored : Snapshot.ofJson text = .ok x) (s : Settings) :
    s.perform (.restore text) = ⟨x, .done, []⟩ := by
  rw [perform, restored]

theorem Settings.perform_restore_of_error (unread : (Snapshot.ofJson text : Except Json.Flaw Settings) = .error flaw)
    (s : Settings) : s.perform (.restore text) = ⟨s, .unreadable flaw, []⟩ := by
  rw [perform, unread]

end Targets

/-- Wherever an integer is due, in an item of any slot, the depth or the capacity, it is restored exactly or the
text is refused. A text that restores becomes the new slot, the depth or the settings; one that is refused leaves
all as it was. -/
theorem Snapshot.exact_or_refused (k : Kind) (free : k.floatFree = true) :
    (∀ spot lo hi lead, Stack.Place k spot lo hi lead →
      Exact (Stack.Spells k.Spells) (Stack.integer? k spot) lo hi lead
        (fun text x => ∀ s : Session k.Value, s.perform (.restore text) = ⟨s.add x, .made s.slots.length, []⟩)
        fun text flaw => ∀ s : Session k.Value, s.perform (.restore text) = ⟨s, .failed (.unreadable flaw), []⟩) ∧
    (∀ lead, Json.Due Depth.schema "value" lead →
      Exact Depth.Spells (fun d => some d.value.val) (-0x8000000000000000) 0x7fffffffffffffff lead
        (fun text x => (∀ d : Depth, d.perform (.restore text) = ⟨x, .done, []⟩) ∧
          ∀ s : Stack k.Value, s.perform (.counter (.restore text)) = ⟨{ s with depth := x }, .counter .done, []⟩)
        fun text flaw => (∀ d : Depth, d.perform (.restore text) = ⟨d, .unreadable flaw, []⟩) ∧
          ∀ s : Stack k.Value, s.perform (.counter (.restore text)) = ⟨s, .counter (.unreadable flaw), []⟩) ∧
    ∀ lead, Json.Due Settings.schema "initial_capacity" lead →
      Exact (fun (s : Settings) text => ∃ given, s.SpellsPart given text) (fun s => some s.capacity.val) 0
        0xffffffffffffffff lead (fun text x => ∀ s : Settings, s.perform (.restore text) = ⟨x, .done, []⟩)
        fun text flaw => ∀ s : Settings, s.perform (.restore text) = ⟨s, .unreadable flaw, []⟩ := by
  refine ⟨?_, ?_, ?_⟩
  · intro spot lo hi lead place
    have back := Stack.readsBack (k.readsBack free)
    refine exact_of_within place.words back.blanks (place.within free) ?_ ?_ ?_ ?_
    · exact fun n above below => place.exists_stack free above below
    · exact fun s text spelled => ⟨_, ofJson_of_readsBack back spelled⟩
    · exact fun text x restored s => s.perform_restore_of_ok restored
    · exact fun text flaw unread s => s.perform_restore_of_error unread
  · intro lead due
    have within := (Depth.within due).imp fun d n same => congrArg (fun n => some n.val) same
    refine exact_of_within (by decide) Depth.readsBack.blanks within ?_ ?_ ?_ ?_
    · exact fun n above below => Depth.exists_depth due above below
    · exact fun d text spelled => ⟨d, ofJson_of_readsBack Depth.readsBack spelled⟩
    · intro text x restored
      refine ⟨Depth.perform_restore_of_ok restored, fun s => ?_⟩
      rw [Stack.perform, Depth.perform_restore_of_ok restored]
    · intro text flaw unread
      refine ⟨Depth.perform_restore_of_error unread, fun s => ?_⟩
      rw [Stack.perform, Depth.perform_restore_of_error unread]
  · intro lead due
    have within := (Settings.carries.within Settings.follows due).imp
      fun s n same => congrArg (fun n => some n.val) same
    refine exact_of_within (by decide) Settings.record.passesBlanks within ?_ ?_ ?_ ?_
    · exact fun n above below => Settings.exists_settings due above below
    · rintro s text ⟨before, inside, behind, blank, blank', ⟨given, spelled⟩, written⟩
      exact ⟨_, s.ofJson_of_part given ⟨before, inside, behind, blank, blank', spelled, written⟩⟩
    · exact fun text x restored s => Settings.perform_restore_of_ok restored s
    · exact fun text flaw unread s => Settings.perform_restore_of_error unread s

/-- A byte in an option in a list: 255 is read, 256 and a number of 21 digits are refused in unfinished texts. -/
theorem Snapshot.exact_or_refused_bytes :
    let k := Kind.list (.option (.unsigned 8))
    let lead := "\x7b\"name\":\"\",\"inner\":[[1,null,"
    let tail := "]],\"depth\":\x7b\"value\":0\x7d\x7d"
    let start : Session k.Value := Session.start
    k.floatFree = true ∧ Stack.Place k (.item [0, 2]) 0 (Nat.pow 2 8 - 1) lead.toList ∧
      (∃ s : Stack k.Value, Stack.integer? k (.item [0, 2]) s = some 255 ∧
        start.perform (.restore (lead ++ "255" ++ tail)) = ⟨start.add s, .made 1, []⟩) ∧
      start.perform (.restore (lead ++ "256]")) = ⟨start, .failed (.unreadable .outOfRange), []⟩ ∧
      start.perform (.restore (lead ++ "100000000000000000000,1")) =
        ⟨start, .failed (.unreadable .wrongType), []⟩ := by
  intro k lead tail start
  have none := Json.blank_nil
  have place : Stack.Place k (.item [0, 2]) 0 (Nat.pow 2 8 - 1) lead.toList := by
    have name : ∃ s, Json.Text.SpellsString s (Json.Text.quote "") := ⟨"", Json.Text.spellsString_quote ""⟩
    have begun : Json.Begun (Stack.schema k.Spells) [("name", Json.Text.quote "")] :=
      ⟨by simp [Stack.schema, name], by simp [Stack.schema], by simp [Stack.schema]⟩
    have due : Json.Due (Stack.schema k.Spells) "inner" "\x7b\"name\":\"\",\"inner\":".toList :=
      .member begun (.cons (Json.spellsMember_writeMember ("name", _)) .nil) (.cons none none (.nil none))
        (by simp [Stack.schema]) (by simp) (Json.Text.spellsString_quote "inner") none none
    have one : (Kind.option (.unsigned 8)).Spells (some ⟨1, by decide, by decide⟩) ['1'] :=
      show ['1'] = Decimal.write 1 by decide
    have null : (Kind.option (.unsigned 8)).Spells (Option.none : Option _) Json.writeNull := rfl
    have byte := Kind.Place.option (Kind.place_integer (show 8 ≤ 64 by decide)).2
    have element := Kind.Place.list (.cons one (.cons null .nil)) (.cons none none (.cons none none (.nil none))) byte
    have items : (Kind.list k).Place [0, 2] 0 (Nat.pow 2 8 - 1) "[[1,null,".toList := .list .nil (.nil none) element
    have split : lead.toList = "\x7b\"name\":\"\",\"inner\":".toList ++ "[[1,null,".toList := by decide +kernel
    rw [split]
    exact .item due items
  have goes := (exact_or_refused k rfl).1 _ _ _ _ place
  have back := Stack.readsBack (k.readsBack rfl)
  refine ⟨rfl, place, ?_, ?_, ?_⟩
  · have split : tail.toList = ']' :: tail.toList.tail := by decide +kernel
    have closed : Json.Delimited tail.toList := split ▸ Json.delimited_bracket tail.toList.tail
    let s : Stack k.Value :=
      ⟨"", [[some ⟨1, by decide, by decide⟩, Option.none, some ⟨255, by decide, by decide⟩]], ⟨Count.ofInt 0⟩⟩
    have same : toJson s = lead ++ "255" ++ tail := by decide +kernel
    have spelled := same ▸ surrounded_toJson back s
    have written : (lead ++ "255" ++ tail).toList = lead.toList ++ (Decimal.write 255 ++ tail.toList) := by
      decide +kernel
    obtain ⟨t, _, holds, made⟩ := goes.holds written closed (by decide +kernel) (by decide) spelled
    exact ⟨t, holds, made start⟩
  · have written : (lead ++ "256]").toList = lead.toList ++ (Decimal.write 256 ++ [']']) := by decide +kernel
    exact goes.refused written (Json.delimited_bracket []) (by decide +kernel) (by decide) start
  · have written : (lead ++ "100000000000000000000,1").toList =
        lead.toList ++ (Decimal.write 100000000000000000000 ++ [',', '1']) := by decide +kernel
    exact goes.refused written (Json.delimited_comma ['1']) (by decide +kernel) (by decide) start

end CountedStack
