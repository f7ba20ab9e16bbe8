/-! The lexical structure of JSON. -/
namespace Predictive.Json

/-- A number carries its value if it is written as a natural number below `2 ^ 64`, a text if its escapes
stand for characters. -/
inductive Token where
  | openBrace | closeBrace | openBracket | closeBracket | comma | colon
  | null
  | truth (b : Bool)
  | number (value : Option Nat)
  | text (value : Option String)

def hexDigit? (c : Char) : Option Nat :=
  if c.isDigit then some (c.toNat - '0'.toNat)
  else if 'a' ≤ c ∧ c ≤ 'f' then some (c.toNat - 'a'.toNat + 10)
  else if 'A' ≤ c ∧ c ≤ 'F' then some (c.toNat - 'A'.toNat + 10)
  else none

def hexWord? (a b c d : Char) : Option Nat := do
  return ((← hexDigit? a) * 4096 + (← hexDigit? b) * 256 + (← hexDigit? c) * 16 + (← hexDigit? d))

/-- The character for the letter of a short escape. -/
def shortEscape? : Char → Option Char
  | '"' => some '"'
  | '\\' => some '\\'
  | '/' => some '/'
  | 'b' => some '\x08'
  | 'f' => some '\x0c'
  | 'n' => some '\n'
  | 'r' => some '\r'
  | 't' => some '\t'
  | _ => none

/-- The code points and 16-bit units up to the closing quote, and what follows it. -/
def lexText : List Char → Option (List Nat × List Char)
  | [] => none
  | '"' :: cs => some ([], cs)
  | '\\' :: 'u' :: a :: b :: c :: d :: cs => do
    let w ← hexWord? a b c d
    let (us, rest) ← lexText cs
    return (w :: us, rest)
  | '\\' :: e :: cs => do
    let c ← shortEscape? e
    let (us, rest) ← lexText cs
    return (c.toNat :: us, rest)
  | c :: cs =>
    if c.val < 32 ∨ c = '\\' then none
    else do
      let (us, rest) ← lexText cs
      return (c.toNat :: us, rest)

/-- Joins each high unit with the low unit after it; none if a unit is left alone. -/
def joinUnits : List Nat → Option (List Char)
  | [] => some []
  | [u] => if 0xD800 ≤ u ∧ u < 0xE000 then none else some [Char.ofNat u]
  | u :: v :: us =>
    if 0xD800 ≤ u ∧ u < 0xDC00 then
      if 0xDC00 ≤ v ∧ v < 0xE000 then
        (joinUnits us).map (Char.ofNat (0x10000 + (u - 0xD800) * 0x400 + (v - 0xDC00)) :: ·)
      else none
    else if 0xDC00 ≤ u ∧ u < 0xE000 then none
    else (joinUnits (v :: us)).map (Char.ofNat u :: ·)

/-- One digit or more. -/
def lexDigits (cs : List Char) : Option (List Char × List Char) :=
  match cs.span Char.isDigit with
  | ([], _) => none
  | ds => some ds

/-- What may follow the digits of a number, and whether anything did. -/
def lexFraction : List Char → Option (Bool × List Char)
  | '.' :: cs => (lexDigits cs).map fun (_, rest) => (true, rest)
  | cs => some (false, cs)

def lexExponent : List Char → Option (Bool × List Char)
  | c :: cs =>
    if c = 'e' ∨ c = 'E' then
      let cs := match cs with
        | '+' :: cs => cs
        | '-' :: cs => cs
        | cs => cs
      (lexDigits cs).map fun (_, rest) => (true, rest)
    else some (false, c :: cs)
  | [] => some (false, [])

def digitsValue (ds : List Char) : Nat := ds.foldl (fun n d => n * 10 + (d.toNat - '0'.toNat)) 0

def lexNumber (cs : List Char) : Option (Option Nat × List Char) := do
  let (negative, cs) := match cs with
    | '-' :: cs => (true, cs)
    | cs => (false, cs)
  let (ds, cs) ← lexDigits cs
  if ds.head? = some '0' ∧ ds.length ≠ 1 then none
  let (fraction, cs) ← lexFraction cs
  let (exponent, cs) ← lexExponent cs
  let n := digitsValue ds
  return (if negative || fraction || exponent || UInt64.size ≤ n then none else some n, cs)

/-- The first token and what follows it. -/
def lexToken : List Char → Option (Token × List Char)
  | '\x7b' :: cs => some (.openBrace, cs)
  | '\x7d' :: cs => some (.closeBrace, cs)
  | '[' :: cs => some (.openBracket, cs)
  | ']' :: cs => some (.closeBracket, cs)
  | ',' :: cs => some (.comma, cs)
  | ':' :: cs => some (.colon, cs)
  | 'n' :: 'u' :: 'l' :: 'l' :: cs => some (.null, cs)
  | 't' :: 'r' :: 'u' :: 'e' :: cs => some (.truth true, cs)
  | 'f' :: 'a' :: 'l' :: 's' :: 'e' :: cs => some (.truth false, cs)
  | '"' :: cs => (lexText cs).map fun (us, rest) => (.text ((joinUnits us).map String.ofList), rest)
  | cs => (lexNumber cs).map fun (n, rest) => (.number n, rest)

def isBlank (c : Char) : Bool := c == ' ' || c == '\n' || c == '\t' || c == '\r'

/-- All tokens, in at most `n` of them. -/
def lex : Nat → List Char → Option (List Token)
  | n, cs =>
    match cs.dropWhile isBlank, n with
    | [], _ => some []
    | _, 0 => none
    | cs, n + 1 => do
      let (t, rest) ← lexToken cs
      return t :: (← lex n rest)

def tokens? (s : String) : Option (List Token) := lex s.length s.toList

end Predictive.Json
