import CountedStack.Integer

namespace CountedStack.Json

inductive Flaw where
  /-- The text is not one JSON value. -/
  | malformed
  /-- A value of another JSON type stands where this one was wanted. -/
  | wrongType
  /-- An integer that the wanted range does not hold. -/
  | outOfRange
  | duplicateField (name : String)
  | missingField (name : String)
  /-- A record written as a list of too few values. -/
  | tooShort (present : Nat) (expected : String)
deriving DecidableEq

def Flaw.message : Flaw → Option String
  | .malformed | .wrongType | .outOfRange => none
  | .duplicateField name => some s!"duplicate field `{name}`"
  | .missingField name => some s!"missing field `{name}`"
  | .tooShort present expected =>
    some ("invalid length " ++ Decimal.text present ++ ", expected " ++ expected)

/-- Takes a value off the front of a text, or answers the first flaw it meets. -/
abbrev Reader (α : Type) := List Char → Except Flaw (α × List Char)

def isBlank (c : Char) : Bool := c == ' ' || c == '\n' || c == '\t' || c == '\r'

def skipBlanks (cs : List Char) : List Char := cs.dropWhile isBlank

def skipWord : List Char → List Char → Option (List Char)
  | [], cs => some cs
  | w :: ws, c :: cs => if w = c then skipWord ws cs else none
  | _ :: _, [] => none

def skipColon (cs : List Char) : Option (List Char) :=
  match skipBlanks cs with
  | ':' :: cs => some cs
  | _ => none

/-- The value that a whole text holds, blanks around it allowed. -/
def Reader.whole {α : Type} (read : Reader α) (text : String) : Except Flaw α :=
  match read text.toList with
  | .error flaw => .error flaw
  | .ok (x, rest) => if skipBlanks rest = [] then .ok x else .error .malformed

end CountedStack.Json
