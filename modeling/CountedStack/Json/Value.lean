import CountedStack.Json.Skip

/-!
One reader per type of value. The readers set no limit to nesting: a type is taken to be nested less than 128
levels deep, and for deeper ones they only say what a reader without a limit does.
-/

namespace CountedStack.Json

variable {α : Type}

/-- The flaw of a text in front of which a value of another type was wanted: a list or an object is taken at its
bracket, all other values have to be complete. -/
def refuse (cs : List Char) : Flaw :=
  match skipBlanks cs with
  | '[' :: _ | '{' :: _ => .wrongType
  | '"' :: cs => if (Text.unquote cs).isSome then .wrongType else .malformed
  | cs =>
    match cs.head? with
    | some c =>
      if c = '-' ∨ c.isDigit then
        match Number.scan cs with
        | some (n, _) => if n.isHuge then .malformed else .wrongType
        | none => .malformed
      else if (skipScalar cs).isSome then .wrongType else .malformed
    | none => .malformed

def writeBool : Bool → List Char
  | true => ['t', 'r', 'u', 'e']
  | false => ['f', 'a', 'l', 's', 'e']

def readBool : Reader Bool := fun cs =>
  let cs := skipBlanks cs
  match skipWord (writeBool true) cs with
  | some rest => .ok (true, rest)
  | none =>
    match skipWord (writeBool false) cs with
    | some rest => .ok (false, rest)
    | none => .error (refuse cs)

def readString : Reader String := fun cs =>
  match skipBlanks cs with
  | '"' :: cs =>
    match Text.unquote cs with
    | some (s, rest) => .ok (s, rest)
    | none => .error .malformed
  | cs => .error (refuse cs)

/-- The integers a 64-bit word holds, signed or not. A number outside them counts as no integer. -/
def isWord (n : Int) : Bool := -0x8000000000000000 ≤ n && n ≤ 0xffffffffffffffff

/-- An integer within bounds that a 64-bit word holds. -/
def readWord (lo hi : Int) : Reader (Bounded lo hi) := fun cs =>
  let cs := skipBlanks cs
  match cs.head? with
  | some c =>
    if c = '-' ∨ c.isDigit then
      match Number.scan cs with
      | none => .error .malformed
      | some (number, rest) =>
        if number.isHuge then .error .malformed
        else
          match number.integer? with
          | none => .error .wrongType
          | some n =>
            match Bounded.ofInt? n with
            | some n => .ok (n, rest)
            | none => .error (if isWord n then .outOfRange else .wrongType)
    else .error (refuse cs)
  | none => .error .malformed

/-- An integer within wider bounds: a run of digits, after a minus sign where the bounds reach below
zero. Whatever else stands there is malformed. -/
def readWide (lo hi : Int) : Reader (Bounded lo hi) := fun cs =>
  let (negative, cs) := Number.sign (skipBlanks cs)
  if negative ∧ 0 ≤ lo then .error .malformed
  else
    match Number.wholePart cs with
    | none => .error .malformed
    | some (ds, rest) =>
      let m : Int := Decimal.natOf ds
      match Bounded.ofInt? (if negative then -m else m) with
      | some n => .ok (n, rest)
      | none => .error .malformed

def readInt (lo hi : Int) : Reader (Bounded lo hi) :=
  if isWord lo ∧ isWord hi then readWord lo hi else readWide lo hi

def writeNull : List Char := ['n', 'u', 'l', 'l']

def writeOption (write : α → List Char) : Option α → List Char
  | none => writeNull
  | some x => write x

def readOption (read : Reader α) : Reader (Option α) := fun cs =>
  match skipBlanks cs with
  | 'n' :: cs =>
    match skipWord writeNull ('n' :: cs) with
    | some rest => .ok (none, rest)
    | none => .error .malformed
  | cs =>
    match read cs with
    | .ok (x, rest) => .ok (some x, rest)
    | .error flaw => .error flaw

def writeList (write : α → List Char) (xs : List α) : List Char :=
  '[' :: (List.intercalate [','] (xs.map write) ++ [']'])

/-- The elements up to the closing bracket, at least one. The fuel is the length of the text, and
each element takes at least one character. -/
def readElements (read : Reader α) : Nat → List α → Reader (List α)
  | 0, _, _ => .error .malformed
  | fuel + 1, done, cs =>
    match read cs with
    | .error flaw => .error flaw
    | .ok (x, cs) =>
      match skipBlanks cs with
      | ',' :: cs => readElements read fuel (x :: done) cs
      | ']' :: cs => .ok ((x :: done).reverse, cs)
      | _ => .error .malformed

def readList (read : Reader α) : Reader (List α) := fun cs =>
  match skipBlanks cs with
  | '[' :: cs =>
    match skipBlanks cs with
    | ']' :: cs => .ok ([], cs)
    | cs => readElements read cs.length [] cs
  | cs => .error (refuse cs)

end CountedStack.Json
