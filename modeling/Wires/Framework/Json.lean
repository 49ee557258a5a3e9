import Mathlib.Data.List.Sort
import Mathlib.Data.String.Basic
import Mathlib.Tactic.Common

/-!
# JSON text

`Json.compact` prints a JSON value with no insignificant whitespace, escaping
a string the way `serde_json` does, and `Json.parse` reads a text: whitespace
between tokens, every escape, surrogate pairs, and nothing after the value. A
number is an integer or, with a fraction or an exponent or as `-0`, a
`FloatLit`, which no integer field takes. Members are kept as they stand,
repeats included: refusing those is the typed decoder's (`Decode.lean`).

`Json.sortKeys` orders every object's members by key, which is what
serialising through a map ordered by key does; `Json.canonical` prints that.
-/

namespace Wires

/-- A number that is no integer: it has a fraction or an exponent, or is `-0`. -/
structure FloatLit where
  neg : Bool
  whole : Nat
  frac : List (Fin 10)
  exp : Option Int
  notInt : frac ≠ [] ∨ exp.isSome = true ∨ neg = true ∧ whole = 0

/-- A JSON value. -/
inductive Json where
  | null
  | bool (b : Bool)
  | num (i : Int)
  | float (f : FloatLit)
  | str (cs : List Char)
  | arr (xs : List Json)
  | obj (ms : List (String × Json))

namespace Json

/-! ## Printing -/

/-- The lower-case hex digit of a value under 16. -/
def hexDigit (n : Nat) : Char := Nat.digitChar n

/-- One character of a string literal. -/
def escapeChar (c : Char) : List Char :=
  if c = '"' then ['\\', '"']
  else if c = '\\' then ['\\', '\\']
  else if c = '\x08' then ['\\', 'b']
  else if c = '\x0c' then ['\\', 'f']
  else if c = '\n' then ['\\', 'n']
  else if c = '\r' then ['\\', 'r']
  else if c = '\t' then ['\\', 't']
  else if c.toNat < 32 then
    ['\\', 'u', '0', '0', hexDigit (c.toNat / 16), hexDigit (c.toNat % 16)]
  else [c]

/-- A string literal, quotes included. -/
def quote (cs : List Char) : List Char := '"' :: cs.flatMap escapeChar ++ ['"']

/-- An integer literal. -/
def number (i : Int) : List Char :=
  if i < 0 then '-' :: Nat.toDigits 10 i.natAbs else Nat.toDigits 10 i.natAbs

/-- The fraction of a number, if it has one. -/
def fraction : List (Fin 10) → List Char
  | [] => []
  | d :: ds => '.' :: (d :: ds).map fun d : Fin 10 => Nat.digitChar d.val

/-- The exponent of a number, if it has one. -/
def exponent : Option Int → List Char
  | none => []
  | some e => 'e' :: number e

/-- A literal that is no integer. -/
def floatText (f : FloatLit) : List Char :=
  (if f.neg then ['-'] else []) ++ (Nat.toDigits 10 f.whole ++ (fraction f.frac ++ exponent f.exp))

mutual

/-- The text of a value, with no insignificant whitespace. -/
def compact : Json → List Char
  | .null => ['n', 'u', 'l', 'l']
  | .bool true => ['t', 'r', 'u', 'e']
  | .bool false => ['f', 'a', 'l', 's', 'e']
  | .num i => number i
  | .float f => floatText f
  | .str s => quote s
  | .arr xs => '[' :: compactElems xs
  | .obj ms => '{' :: compactMembers ms

/-- The elements of an array and its closing bracket. -/
def compactElems : List Json → List Char
  | [] => [']']
  | [x] => compact x ++ [']']
  | x :: y :: xs => compact x ++ ',' :: compactElems (y :: xs)

/-- The members of an object and its closing brace. -/
def compactMembers : List (String × Json) → List Char
  | [] => ['}']
  | [(k, v)] => quote k.toList ++ ':' :: compact v ++ ['}']
  | (k, v) :: m :: ms => quote k.toList ++ ':' :: compact v ++ ',' :: compactMembers (m :: ms)

end

/-! ## Reading -/

/-- JSON's insignificant whitespace. -/
def isWs (c : Char) : Bool := c = ' ' || c = '\n' || c = '\t' || c = '\r'

/-- The text after its leading whitespace. -/
def skipWs (cs : List Char) : List Char := cs.dropWhile isWs

/-- The value of a hex digit, of either case. -/
def hexVal (c : Char) : Option Nat :=
  if '0' ≤ c ∧ c ≤ '9' then some (c.toNat - 48)
  else if 'a' ≤ c ∧ c ≤ 'f' then some (c.toNat - 87)
  else if 'A' ≤ c ∧ c ≤ 'F' then some (c.toNat - 55)
  else none

theorem hexVal_hexDigit : ∀ n < 16, hexVal (hexDigit n) = some n := by decide

/-- The value of four hex digits. -/
def hex4 (a b c d : Char) : Option Nat := do
  let a ← hexVal a
  let b ← hexVal b
  let c ← hexVal c
  let d ← hexVal d
  return 4096 * a + 256 * b + 16 * c + d

/-- Put a character before a parsed string. -/
def consTo (c : Char) (p : Option (List Char × List Char)) : Option (List Char × List Char) :=
  p.map fun q => (c :: q.1, q.2)

/-- The rest of a string literal, after its opening quote, and what follows it. -/
def parseString : List Char → Option (List Char × List Char)
  | [] => none
  | '"' :: r => some ([], r)
  | '\\' :: '"' :: r => consTo '"' (parseString r)
  | '\\' :: '\\' :: r => consTo '\\' (parseString r)
  | '\\' :: '/' :: r => consTo '/' (parseString r)
  | '\\' :: 'b' :: r => consTo '\x08' (parseString r)
  | '\\' :: 'f' :: r => consTo '\x0c' (parseString r)
  | '\\' :: 'n' :: r => consTo '\n' (parseString r)
  | '\\' :: 'r' :: r => consTo '\r' (parseString r)
  | '\\' :: 't' :: r => consTo '\t' (parseString r)
  | '\\' :: 'u' :: a :: b :: c :: d :: r =>
    match hex4 a b c d with
    | none => none
    | some u =>
      if 0xD800 ≤ u ∧ u < 0xDC00 then
        -- a leading surrogate stands only before a trailing one
        match r with
        | '\\' :: 'u' :: e :: f :: g :: h :: r' =>
          match hex4 e f g h with
          | none => none
          | some w =>
            if 0xDC00 ≤ w ∧ w < 0xE000 then
              consTo (Char.ofNat (0x10000 + (u - 0xD800) * 0x400 + (w - 0xDC00))) (parseString r')
            else none
        | _ => none
      else if 0xDC00 ≤ u ∧ u < 0xE000 then none
      else consTo (Char.ofNat u) (parseString r)
  | '\\' :: _ => none
  | c :: r => if c.toNat < 32 then none else consTo c (parseString r)

/-- Decimal digits, and what follows them. -/
def spanDigits (cs : List Char) : List Char × List Char :=
  (cs.takeWhile Char.isDigit, cs.dropWhile Char.isDigit)

/-- The digits of a natural number with no leading zero, and what follows it. -/
def parseNat (cs : List Char) : Option (Nat × List Char) :=
  let (ds, r) := spanDigits cs
  if ds = [] ∨ (ds.head? = some '0' ∧ ds ≠ ['0']) then none else some (Nat.ofDigitChars 10 ds 0, r)

/-- A digit's value. -/
def digitVal (c : Char) : Fin 10 := Fin.ofNat 10 (c.toNat - 48)

/-- A fraction, if there is one, and what follows it. -/
def parseFraction : List Char → Option (List (Fin 10) × List Char)
  | '.' :: r =>
    let (ds, r) := spanDigits r
    if ds = [] then none else some (ds.map digitVal, r)
  | r => some ([], r)

/-- Whether an exponent is negative, and what follows its sign. -/
def parseSign : List Char → Bool × List Char
  | '-' :: r => (true, r)
  | '+' :: r => (false, r)
  | r => (false, r)

/-- An exponent, if there is one, and what follows it. -/
def parseExponent : List Char → Option (Option Int × List Char)
  | c :: r =>
    if c = 'e' ∨ c = 'E' then
      let (neg, r) := parseSign r
      let (ds, r) := spanDigits r
      if ds = [] then none
      else
        let n : Int := Nat.ofDigitChars 10 ds 0
        some (some (if neg then -n else n), r)
    else some (none, c :: r)
  | [] => some (none, [])

/-- A number without its sign, and what follows it. -/
def parseUnsigned (neg : Bool) (cs : List Char) : Option (Json × List Char) := do
  let (n, r) ← parseNat cs
  let (frac, r) ← parseFraction r
  let (exp, r) ← parseExponent r
  if h : frac ≠ [] ∨ exp.isSome = true ∨ neg = true ∧ n = 0 then
    some (.float ⟨neg, n, frac, exp, h⟩, r)
  else some (.num (if neg then -n else n), r)

/-- A number, and what follows it. -/
def parseNumber : List Char → Option (Json × List Char)
  | '-' :: cs => parseUnsigned true cs
  | cs => parseUnsigned false cs

mutual

/-- One value, and what follows it; `n` bounds the nesting and length read. -/
def parseValue : Nat → List Char → Option (Json × List Char)
  | 0, _ => none
  | n + 1, cs =>
    match skipWs cs with
    | 'n' :: 'u' :: 'l' :: 'l' :: r => some (.null, r)
    | 't' :: 'r' :: 'u' :: 'e' :: r => some (.bool true, r)
    | 'f' :: 'a' :: 'l' :: 's' :: 'e' :: r => some (.bool false, r)
    | '"' :: r => (parseString r).map fun p => (.str p.1, p.2)
    | '[' :: r =>
      match skipWs r with
      | ']' :: r' => some (.arr [], r')
      | _ => (parseElems n r).map fun p => (.arr p.1, p.2)
    | '{' :: r =>
      match skipWs r with
      | '}' :: r' => some (.obj [], r')
      | _ => (parseMembers n r).map fun p => (.obj p.1, p.2)
    | r => parseNumber r

/-- The elements of a non-empty array, and what follows its closing bracket. -/
def parseElems : Nat → List Char → Option (List Json × List Char)
  | 0, _ => none
  | n + 1, cs => do
    let (x, r) ← parseValue n cs
    match skipWs r with
    | ',' :: r => (parseElems n r).map fun p => (x :: p.1, p.2)
    | ']' :: r => some ([x], r)
    | _ => none

/-- The members of a non-empty object, and what follows its closing brace. -/
def parseMembers : Nat → List Char → Option (List (String × Json) × List Char)
  | 0, _ => none
  | n + 1, cs =>
    match skipWs cs with
    | '"' :: r => do
      let (k, r) ← parseString r
      match skipWs r with
      | ':' :: r => do
        let (v, r) ← parseValue n r
        match skipWs r with
        | ',' :: r => (parseMembers n r).map fun p => ((String.ofList k, v) :: p.1, p.2)
        | '}' :: r => some ([(String.ofList k, v)], r)
        | _ => none
      | _ => none
    | _ => none

end

/-- A whole text: one value, then nothing but whitespace. -/
def parse (cs : List Char) : Option Json := do
  let (v, r) ← parseValue cs.length cs
  if skipWs r = [] then some v else none

/-! ## The order of members -/

mutual

/-- The value with the members of every object, its values' objects first, put in the order
`σ` gives. -/
def arrange (σ : List (String × Json) → List (String × Json)) : Json → Json
  | .null => .null
  | .bool b => .bool b
  | .num i => .num i
  | .float f => .float f
  | .str s => .str s
  | .arr xs => .arr (arrangeElems σ xs)
  | .obj ms => .obj (σ (arrangeMembers σ ms))

def arrangeElems (σ : List (String × Json) → List (String × Json)) : List Json → List Json
  | [] => []
  | x :: xs => arrange σ x :: arrangeElems σ xs

def arrangeMembers (σ : List (String × Json) → List (String × Json)) :
    List (String × Json) → List (String × Json)
  | [] => []
  | (k, v) :: ms => (k, arrange σ v) :: arrangeMembers σ ms

end

/-- Members in increasing key order: byte order, which for UTF-8 is that of code points. -/
def sortMembers (ms : List (String × Json)) : List (String × Json) :=
  ms.insertionSort fun a b => a.1 ≤ b.1

/-- Every object's members in key order. -/
def sortKeys (j : Json) : Json := j.arrange sortMembers

/-- The text of the value with its keys sorted. -/
def canonical (j : Json) : List Char := j.sortKeys.compact

end Json

end Wires
