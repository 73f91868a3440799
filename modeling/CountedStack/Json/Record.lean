import CountedStack.Json.Value

/-!
A record is read from an object, its fields in any order among members that are no fields, or from a list of
the fields in order. It is one level of nesting, like a list, and no limit is set to these (see `Json.Value`).
-/

namespace CountedStack.Json

variable {ρ β τ : Type}

/-- A field of a record: how it is called, whether a draft has it, and the reader that adds it. -/
structure Field (ρ : Type) where
  name : String
  isSet : ρ → Bool
  read : ρ → Reader ρ

/-- A field whose value is read by `read` and stands in the draft where `get` and `set` say. -/
def Field.of (name : String) (get : ρ → Option τ) (set : ρ → τ → ρ) (read : Reader τ) : Field ρ where
  name := name
  isSet draft := (get draft).isSome
  read draft cs :=
    match read cs with
    | .ok (x, rest) => .ok (set draft x, rest)
    | .error flaw => .error flaw

/-- A kind of record: its fields in order, the empty draft, what a draft becomes, and the words for
the record in the flaw of a list that is too short. -/
structure Record (ρ β : Type) where
  fields : List (Field ρ)
  empty : ρ
  build : ρ → Option β
  expected : String

def writeMember (name : String) (value : List Char) : List Char := Text.quote name ++ ':' :: value

def writeObject (members : List (String × List Char)) : List Char :=
  '{' :: (List.intercalate [','] (members.map fun m => writeMember m.1 m.2) ++ ['}'])

namespace Record

variable (record : Record ρ β)

/-- The flaw of an object that ends too early: its first field that the draft does not have. -/
def missing (draft : ρ) : Flaw :=
  .missingField (((record.fields.find? fun f => !f.isSet draft).map (·.name)).getD "")

/-- One member. A field that the draft has already is refused at its second key; a member that is no
field is skipped. -/
def readMember (draft : ρ) : Reader ρ := fun cs =>
  match cs with
  | '"' :: cs =>
    match Text.unquote cs with
    | none => .error .malformed
    | some (key, cs) =>
      match record.fields.find? (·.name = key) with
      | some field =>
        if field.isSet draft then .error (.duplicateField key)
        else
          match skipColon cs with
          | some cs => field.read draft cs
          | none => .error .malformed
      | none =>
        match (skipColon cs).bind skipValue with
        | some cs => .ok (draft, cs)
        | none => .error .malformed
  | _ => .error .malformed

/-- The members up to the closing brace, at least one. The fuel is the length of the text, and each
member takes at least one character. -/
def readMembers : Nat → ρ → Reader ρ
  | 0, _, _ => .error .malformed
  | fuel + 1, draft, cs =>
    match record.readMember draft cs with
    | .error flaw => .error flaw
    | .ok (draft, cs) =>
      match skipBlanks cs with
      | ',' :: cs => readMembers fuel draft (skipBlanks cs)
      | '}' :: cs => .ok (draft, cs)
      | _ => .error .malformed

def readDraft : Reader ρ := fun cs =>
  match skipBlanks cs with
  | '}' :: cs => .ok (record.empty, cs)
  | cs => record.readMembers cs.length record.empty cs

def readObject : Reader β := fun cs =>
  match record.readDraft cs with
  | .error flaw => .error flaw
  | .ok (draft, rest) =>
    match record.build draft with
    | some x => .ok (x, rest)
    | none => .error (record.missing draft)

/-- The fields that a list holds, up to its closing bracket. `first` says that no comma is due. -/
def readFields : List (Field ρ) → (first : Bool) → ρ → Reader ρ
  | [], _, draft, cs =>
    match skipBlanks cs with
    | ']' :: rest => .ok (draft, rest)
    | _ => .error .malformed
  | field :: fields, first, draft, cs =>
    match skipBlanks cs with
    | ']' :: rest => .ok (draft, rest)
    | c :: rest =>
      if first then
        match field.read draft (c :: rest) with
        | .ok (draft, cs) => readFields fields false draft cs
        | .error flaw => .error flaw
      else if c = ',' then
        match field.read draft rest with
        | .ok (draft, cs) => readFields fields false draft cs
        | .error flaw => .error flaw
      else .error .malformed
    | [] => .error .malformed

def readListed : Reader β := fun cs =>
  match readFields record.fields true record.empty cs with
  | .error flaw => .error flaw
  | .ok (draft, rest) =>
    match record.build draft with
    | some x => .ok (x, rest)
    | none => .error (.tooShort (record.fields.countP (·.isSet draft)) record.expected)

def read : Reader β := fun cs =>
  match skipBlanks cs with
  | '{' :: cs => record.readObject cs
  | '[' :: cs => record.readListed cs
  | cs => .error (refuse cs)

end Record

end CountedStack.Json
