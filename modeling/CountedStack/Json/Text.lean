import CountedStack.Json.Flaw

/-!
Strings in quotes. Reading goes in two passes: `scan` cuts the text into characters and four-digit escapes, and
`join` puts these together. A string that nobody reads is only scanned, so that an escape without its partner is
a flaw only in a string that is wanted.
-/

namespace CountedStack.Json.Text

def hexDigit (n : Nat) : Char := Nat.digitChar (n % 16)

/-- The written form of a character: quotes and backslashes after a backslash, control characters by
their short escape or their number, all others as they are. -/
def escape (c : Char) : List Char :=
  if c = '"' then ['\\', '"']
  else if c = '\\' then ['\\', '\\']
  else if c = '\x08' then ['\\', 'b']
  else if c = '\x0c' then ['\\', 'f']
  else if c = '\n' then ['\\', 'n']
  else if c = '\r' then ['\\', 'r']
  else if c = '\t' then ['\\', 't']
  else if c.toNat < 0x20 then ['\\', 'u', '0', '0', hexDigit (c.toNat / 16), hexDigit c.toNat]
  else [c]

def quote (s : String) : List Char := '"' :: (s.toList.flatMap escape ++ ['"'])

inductive Piece where
  | char (c : Char)
  /-- A four-digit escape: a character of the basic plane or half of one above it. -/
  | unit (n : Nat)
deriving DecidableEq

def hexValue (c : Char) : Option Nat :=
  if '0' ≤ c ∧ c ≤ '9' then some (c.toNat - '0'.toNat)
  else if 'a' ≤ c ∧ c ≤ 'f' then some (c.toNat - 'a'.toNat + 10)
  else if 'A' ≤ c ∧ c ≤ 'F' then some (c.toNat - 'A'.toNat + 10)
  else none

def hexUnit (a b c d : Char) : Option Nat :=
  match hexValue a, hexValue b, hexValue c, hexValue d with
  | some a, some b, some c, some d => some (((a * 16 + b) * 16 + c) * 16 + d)
  | _, _, _, _ => none

def shortEscape (c : Char) : Option Char :=
  if c = '"' ∨ c = '\\' ∨ c = '/' then some c
  else if c = 'b' then some '\x08'
  else if c = 'f' then some '\x0c'
  else if c = 'n' then some '\n'
  else if c = 'r' then some '\r'
  else if c = 't' then some '\t'
  else none

/-- The pieces up to the closing quote, and what follows it. Control characters have to be escaped. -/
def scanFrom (done : List Piece) : List Char → Option (List Piece × List Char)
  | [] => none
  | '"' :: rest => some (done.reverse, rest)
  | '\\' :: 'u' :: a :: b :: c :: d :: rest =>
    match hexUnit a b c d with
    | some n => scanFrom (.unit n :: done) rest
    | none => none
  | '\\' :: e :: rest =>
    match shortEscape e with
    | some c => scanFrom (.char c :: done) rest
    | none => none
  | c :: rest => if c.toNat < 0x20 ∨ c = '\\' then none else scanFrom (.char c :: done) rest

def scan (cs : List Char) : Option (List Piece × List Char) := scanFrom [] cs

def isHighUnit (n : Nat) : Bool := 0xD800 ≤ n && n < 0xDC00

def isLowUnit (n : Nat) : Bool := 0xDC00 ≤ n && n < 0xE000

def pairChar (high low : Nat) : Char := Char.ofNat (0x10000 + (high - 0xD800) * 0x400 + (low - 0xDC00))

/-- The characters of a string from its pieces; none where half a pair stands alone. -/
def joinFrom (done : List Char) : List Piece → Option (List Char)
  | [] => some done.reverse
  | .char c :: ps => joinFrom (c :: done) ps
  | .unit high :: .unit low :: ps =>
    if isHighUnit high then
      if isLowUnit low then joinFrom (pairChar high low :: done) ps else none
    else if isLowUnit high then none
    else joinFrom (Char.ofNat high :: done) (.unit low :: ps)
  | .unit n :: ps =>
    if isHighUnit n || isLowUnit n then none else joinFrom (Char.ofNat n :: done) ps

def join (ps : List Piece) : Option (List Char) := joinFrom [] ps

def unquote (cs : List Char) : Option (String × List Char) :=
  match scan cs with
  | none => none
  | some (pieces, rest) => (join pieces).map fun s => (String.ofList s, rest)

end CountedStack.Json.Text
