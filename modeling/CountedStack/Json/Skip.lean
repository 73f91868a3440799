import CountedStack.Json.Text
import CountedStack.Json.Number

/-! Passing over one JSON value of any kind and any nesting depth without keeping it. -/

namespace CountedStack.Json

inductive Bracket where
  | list
  | object
deriving DecidableEq

inductive Phase where
  | value
  | behind
deriving DecidableEq

def skipScalar (cs : List Char) : Option (List Char) :=
  match cs with
  | '"' :: cs => (Text.scan cs).map (·.2)
  | 'n' :: _ => skipWord ['n', 'u', 'l', 'l'] cs
  | 't' :: _ => skipWord ['t', 'r', 'u', 'e'] cs
  | 'f' :: _ => skipWord ['f', 'a', 'l', 's', 'e'] cs
  | cs => (Number.scan cs).map (·.2)

def skipKey (cs : List Char) : Option (List Char) :=
  match skipBlanks cs with
  | '"' :: cs =>
    match Text.scan cs with
    | some (_, rest) => skipColon rest
    | none => none
  | _ => none

/-- The walk until no bracket is open, the open ones innermost first. Each step takes at least one character,
so that a fuel above the length of the text never runs out. -/
def skipFrom : Nat → Phase → List Bracket → List Char → Option (List Char)
  | _, .behind, [], cs => some cs
  | 0, _, _, _ => none
  | fuel + 1, .value, opened, cs =>
    match skipBlanks cs with
    | '[' :: cs =>
      match skipBlanks cs with
      | ']' :: cs => skipFrom fuel .behind opened cs
      | cs => skipFrom fuel .value (.list :: opened) cs
    | '{' :: cs =>
      match skipBlanks cs with
      | '}' :: cs => skipFrom fuel .behind opened cs
      | cs =>
        match skipKey cs with
        | some cs => skipFrom fuel .value (.object :: opened) cs
        | none => none
    | cs =>
      match skipScalar cs with
      | some cs => skipFrom fuel .behind opened cs
      | none => none
  | fuel + 1, .behind, .list :: opened, cs =>
    match skipBlanks cs with
    | ',' :: cs => skipFrom fuel .value (.list :: opened) cs
    | ']' :: cs => skipFrom fuel .behind opened cs
    | _ => none
  | fuel + 1, .behind, .object :: opened, cs =>
    match skipBlanks cs with
    | ',' :: cs =>
      match skipKey cs with
      | some cs => skipFrom fuel .value (.object :: opened) cs
      | none => none
    | '}' :: cs => skipFrom fuel .behind opened cs
    | _ => none

def skipValue (cs : List Char) : Option (List Char) := skipFrom (cs.length + 1) .value [] cs

end CountedStack.Json
