import CountedStack.Proofs.Json.Within
import Mathlib.Data.List.Perm.Basic

namespace CountedStack.Json

theorem Delimited.append {cs rest : List Char} (h : Delimited cs) (closed : Delimited rest) :
    Delimited (cs ++ rest) := by
  cases cs with
  | nil => exact closed
  | cons c cs => exact h

namespace Leads

variable {values others : List (List Char)} {front tail : List Char} (leads : Leads values front)
  (more : Continues others tail) (value : List Char)

include leads more

theorem continues {blanks : List Char} (blank : Blank blanks) :
    Continues (values ++ value :: others) (blanks ++ ',' :: (front ++ (value ++ tail))) := by
  induction leads generalizing blanks with
  | nil blank' => exact .cons blank blank' more
  | @cons before behind first front values blankBefore blankBehind _ ih =>
    have assoc : before ++ (first ++ (behind ++ ',' :: front)) ++ (value ++ tail) =
        before ++ (first ++ (behind ++ ',' :: (front ++ (value ++ tail)))) := by simp
    rw [assoc]
    exact .cons blank blankBefore (ih blankBehind)

theorem enclosed (left right : Char) :
    Enclosed left right (values ++ value :: others) (left :: front ++ (value ++ (tail ++ [right]))) := by
  cases leads with
  | nil blank => exact .filled blank more
  | @cons before behind first front values blankBefore blankBehind leads =>
    have assoc : left :: (before ++ (first ++ (behind ++ ',' :: front))) ++ (value ++ (tail ++ [right])) =
        left :: (before ++ (first ++ (behind ++ ',' :: (front ++ (value ++ tail)) ++ [right]))) := by simp
    rw [assoc]
    exact .filled blankBefore (leads.continues more value blankBehind)

end Leads

theorem spellsList_concat {α : Type} {spells : α → List Char → Prop} {xs : List α} {values : List (List Char)}
    {front : List Char} (leads : Leads values front) (spelled : List.Forall₂ spells xs values) {x : α}
    {value : List Char} (last : spells x value) :
    SpellsList spells (xs ++ [x]) ('[' :: front ++ (value ++ [']'])) :=
  ⟨values ++ [value], List.rel_append spelled (.cons last .nil), leads.enclosed (.nil blank_nil) value '[' ']'⟩

section Records

variable {schema : Schema}

theorem eq_of_mem_schema (distinct : (schema.map Prod.fst).Nodup) {key : String} {spells spells' : List Char → Prop}
    (own : (key, spells) ∈ schema) (own' : (key, spells') ∈ schema) : spells = spells' :=
  congrArg Prod.snd (List.inj_on_of_nodup_map distinct own own' rfl)

namespace Begun

variable {members : List Member} (begun : Begun schema members)

include begun

theorem cons_field (distinct : (schema.map Prod.fst).Nodup) {key : String} {spells : List Char → Prop}
    (own : (key, spells) ∈ schema) (fresh : key ∉ members.map Prod.fst) {value : List Char} (typed : spells value) :
    Begun schema ((key, value) :: members) where
  typed := by
    intro m member spells' own'
    rcases List.mem_cons.mp member with rfl | member
    · exact eq_of_mem_schema distinct own own' ▸ typed
    · exact begun.typed m member spells' own'
  others := by
    intro m member unknown
    rcases List.mem_cons.mp member with rfl | member
    · exact absurd (List.mem_map_of_mem own) unknown
    · exact begun.others m member unknown
  once := by
    have field : key ∈ schema.map Prod.fst := List.mem_map_of_mem own
    rw [List.filter_cons, if_pos (decide_eq_true field), List.map_cons, List.nodup_cons]
    exact ⟨fun again => fresh ((List.filter_sublist.map Prod.fst).subset again), begun.once⟩

theorem perm_fields {fields : List Member} (names : fields.map Prod.fst = schema.map Prod.fst)
    (distinct : (schema.map Prod.fst).Nodup) (present : ∀ m ∈ members, m.1 ∈ schema.map Prod.fst → m ∈ fields) :
    (members.filter (fun m => m.1 ∈ schema.map Prod.fst) ++
      fields.filter (fun m => !decide (m.1 ∈ members.map Prod.fst))).Perm fields := by
  have distinct' : (fields.map Prod.fst).Nodup := names ▸ distinct
  have come : (members.filter fun m => m.1 ∈ schema.map Prod.fst).Perm
      (fields.filter fun m => m.1 ∈ members.map Prod.fst) := by
    refine (List.perm_ext_iff_of_nodup begun.once.of_map (distinct'.of_map.filter _)).mpr ?_
    intro m
    rw [List.mem_filter, List.mem_filter, decide_eq_true_eq, decide_eq_true_eq]
    constructor
    · rintro ⟨member, field⟩
      exact ⟨present m member field, List.mem_map_of_mem member⟩
    · rintro ⟨own, came⟩
      obtain ⟨m', member, same⟩ := List.mem_map.mp came
      have field : m.1 ∈ schema.map Prod.fst := names ▸ List.mem_map_of_mem own
      have own' := present m' member (same ▸ field)
      obtain rfl : m' = m := List.inj_on_of_nodup_map distinct' own' own same
      exact ⟨member, field⟩
  exact (come.append_right _).trans (List.filter_append_perm _ fields)

end Begun

theorem Begun.exists_record {members : List Member} (begun : Begun schema members)
    (inhabited : ∀ type ∈ schema, ∃ text, type.2 text) (distinct : (schema.map Prod.fst).Nodup) {key : String}
    {spells : List Char → Prop} (own : (key, spells) ∈ schema) (fresh : key ∉ members.map Prod.fst)
    {value text : List Char} (typed : spells value) (member : SpellsMember (key, value) text)
    {texts : List (List Char)} {front : List Char} (spelled : List.Forall₂ SpellsMember members texts)
    (leads : Leads texts front) :
    ∃ tail fields, Delimited tail ∧ List.Forall₂ IsField schema fields ∧
      SpellsRecord fields ('{' :: front ++ (text ++ tail)) := by
  have longer := begun.cons_field distinct own fresh typed
  obtain ⟨fields, isFields, present⟩ := longer.exists_fields inhabited
  have names := map_fst_of_isField isFields
  let missing := fields.filter fun m => !decide (m.1 ∈ ((key, value) :: members).map Prod.fst)
  have known : ∀ m ∈ missing, m.1 ∈ schema.map Prod.fst := fun m member =>
    names ▸ List.mem_map_of_mem (List.mem_filter.mp member).1
  have later : List.Forall₂ SpellsMember missing (missing.map fun m => writeMember m.1 m.2) :=
    List.forall₂_map_right_iff.mpr (List.forall₂_same.mpr fun m _ => spellsMember_writeMember m)
  have more := continues_flatMap (missing.map fun m => writeMember m.1 m.2)
  refine ⟨_, fields, more.delimited (delimited_brace []), isFields, ?_⟩
  refine .object ?_ ?_ (List.rel_append spelled (.cons member later)) (leads.enclosed more text '{' '}')
  · rw [names]
    have all : missing.filter (fun m => m.1 ∈ schema.map Prod.fst) = missing :=
      List.filter_eq_self.mpr fun m member => decide_eq_true (known m member)
    refine (List.perm_middle.filter _).trans ?_
    rw [← List.cons_append, List.filter_append, all]
    exact longer.perm_fields names distinct present
  · intro m member unknown
    rw [names] at unknown
    rw [List.mem_append, List.mem_cons] at member
    rcases member with member | rfl | member
    · exact begun.others m member unknown
    · exact absurd (List.mem_map_of_mem own) unknown
    · exact absurd (known m member) unknown

/-- Behind the value of a field a record can be completed. -/
theorem Due.exists_record {ρ β : Type} {record : Record ρ β} (follows : record.Follows schema) {key : String}
    {lead : List Char} (due : Due schema key lead) {spells : List Char → Prop} (own : (key, spells) ∈ schema)
    {value : List Char} (typed : spells value) :
    ∃ tail fields, Delimited tail ∧ List.Forall₂ IsField schema fields ∧
      SpellsRecord fields (lead ++ (value ++ tail)) := by
  obtain ⟨_, distinct⟩ := follows.names
  cases due with
  | @member members texts front written before behind begun spelled leads field fresh spells blank blank' =>
    have member : SpellsMember (key, value) (written ++ (before ++ ':' :: (behind ++ value))) :=
      ⟨written, spells, before, behind, blank, blank', rfl⟩
    obtain ⟨tail, fields, delimited, isFields, record⟩ :=
      begun.exists_record follows.inhabited distinct own fresh typed member spelled leads
    have assoc : '{' :: (front ++ (written ++ (before ++ ':' :: behind))) ++ (value ++ tail) =
        '{' :: front ++ (written ++ (before ++ ':' :: (behind ++ value)) ++ tail) := by simp
    exact ⟨tail, fields, delimited, isFields, assoc ▸ record⟩
  | @listed done later spells' values front split come leads =>
    obtain ⟨first, isFirst, rfl⟩ := exists_isField come
    have inhabited : ∀ type ∈ later, ∃ text, type.2 text := fun type member =>
      follows.inhabited type (split ▸ List.mem_append_right done (List.mem_cons_of_mem _ member))
    obtain ⟨rest, isRest, _⟩ := (Begun.nil later).exists_fields inhabited
    have own' : (key, spells') ∈ schema := split ▸ List.mem_append_right done List.mem_cons_self
    have typed' : spells' value := eq_of_mem_schema distinct own own' ▸ typed
    have more := continues_flatMap (rest.map Prod.snd)
    refine ⟨_, first ++ (key, value) :: rest, more.delimited (delimited_bracket []), ?_, .list ?_⟩
    · rw [split]
      exact List.rel_append isFirst (.cons ⟨rfl, typed'⟩ isRest)
    · rw [List.map_append, List.map_cons]
      exact leads.enclosed more value '[' ']'

end Records

end CountedStack.Json
