import Wires.Framework.Bytes
import Wires.Framework.Json

/-!
# Members that are passed over

A derived deserialiser that reads bytes looks into the members its struct names, and
passes over the others as `serde_json` passes over a value it is not asked for:
the value has to be JSON, but in its strings any byte may stand, and an escape may be of
half a surrogate pair; its numbers may be of any size, and it may nest as deep as it
likes. `Json.parseOpen names` is what is read so of an object, its members under `names`.
Bytes are scanned as the characters of the same numbers (`latin1`).
-/

namespace Wires

namespace Json

/-- Each byte as the character of its number. -/
def latin1 (bs : List UInt8) : List Char := bs.map fun b => Char.ofNat b.toNat

/-- The bytes again. -/
def ofLatin1 (cs : List Char) : List UInt8 := cs.map fun c => UInt8.ofNat c.toNat

/-! ## Passing over a value -/

/-- What follows a string literal, whose opening quote is gone. -/
def skipString : List Char → Option (List Char)
  | [] => none
  | '"' :: r => some r
  | '\\' :: 'u' :: a :: b :: c :: d :: r => (hex4 a b c d).bind fun _ => skipString r
  | '\\' :: c :: r => if c ∈ ['"', '\\', '/', 'b', 'f', 'n', 'r', 't'] then skipString r else none
  | c :: r => if c.toNat < 32 ∨ c = '\\' then none else skipString r

mutual

/-- What follows one value; `n` bounds the nesting and length read. -/
def skipValue : Nat → List Char → Option (List Char)
  | 0, _ => none
  | n + 1, cs =>
    match skipWs cs with
    | 'n' :: 'u' :: 'l' :: 'l' :: r => some r
    | 't' :: 'r' :: 'u' :: 'e' :: r => some r
    | 'f' :: 'a' :: 'l' :: 's' :: 'e' :: r => some r
    | '"' :: r => skipString r
    | '[' :: r =>
      match skipWs r with
      | ']' :: r' => some r'
      | _ => skipElems n r
    | '{' :: r =>
      match skipWs r with
      | '}' :: r' => some r'
      | _ => skipMembers n r
    | r => (parseNumber r).map Prod.snd

/-- What follows the elements of a non-empty array and its closing bracket. -/
def skipElems : Nat → List Char → Option (List Char)
  | 0, _ => none
  | n + 1, cs => do
    let r ← skipValue n cs
    match skipWs r with
    | ',' :: r => skipElems n r
    | ']' :: r => some r
    | _ => none

/-- What follows the members of a non-empty object and its closing brace. -/
def skipMembers : Nat → List Char → Option (List Char)
  | 0, _ => none
  | n + 1, cs =>
    match skipWs cs with
    | '"' :: r => do
      let r ← skipString r
      match skipWs r with
      | ':' :: r => do
        let r ← skipValue n r
        match skipWs r with
        | ',' :: r => skipMembers n r
        | '}' :: r => some r
        | _ => none
      | _ => none
    | _ => none

end

/-! ## Reading an object -/

/-- The bytes that stand before `r` in `cs`, as text. -/
def textBefore (cs r : List Char) : Option (List Char) :=
  utf8Decode (ofLatin1 (cs.take (cs.length - r.length)))

/-- A key, whose opening quote is gone, and what follows it. -/
def openKey (cs : List Char) : Option (String × List Char) := do
  let r ← skipString cs
  let (k, _) ← (← textBefore cs r) |> parseString
  return (String.ofList k, r)

/-- The members under `names` of a non-empty object, and what follows its closing brace. -/
def openMembers (names : List String) : Nat → List Char → Option (List (String × Json) × List Char)
  | 0, _ => none
  | n + 1, cs =>
    match skipWs cs with
    | '"' :: r => do
      let (k, r) ← openKey r
      match skipWs r with
      | ':' :: r => do
        let rest ← skipValue n r
        let read ← if k ∈ names then do
            let v ← (← textBefore r rest) |> parse
            pure [(k, v)]
          else pure []
        match skipWs rest with
        | ',' :: rest => (openMembers names n rest).map fun p => (read ++ p.1, p.2)
        | '}' :: rest => some (read, rest)
        | _ => none
      | _ => none
    | _ => none

/-- `from_slice`, of what a struct with the fields `names` looks into: of an object its members under
them, and anything else whole. -/
def parseOpen (names : List String) (bytes : List UInt8) : Option Json :=
  match skipWs (latin1 bytes) with
  | '{' :: r => do
    let (ms, rest) ← match skipWs r with
      | '}' :: rest => some ([], rest)
      | _ => openMembers names r.length r
    if skipWs rest = [] then some (.obj ms) else none
  | _ => (utf8Decode bytes).bind parse

end Json

end Wires
