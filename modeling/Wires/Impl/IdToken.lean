import Wires.Framework.Base64
import Wires.Framework.JsonOpen
import Wires.Impl.Fresh
import Wires.Impl.Gate

/-!
# Identity tokens

`library/calls/idp.rs`: the compact JWS of an identity provider (`Jws.parse`,
`Jws.verifySignature`) and what a host makes of it (`verifyClaim`). What the
verifier calls of `ring`, `blake3` and `serde_json`'s floating point is `Jose`.
-/

namespace Wires

/-- The `derive_key` context of a nonce. -/
def OIDC_NONCE_CONTEXT : String := "wires oidc-nonce v1"

/-- The one issuer whose `hd` claim is an organization. -/
def GOOGLE_ISSUER : Issuer := "https://accounts.google.com"

/-- What the verifier gets from the libraries under it. -/
class Jose where
  /-- `RSA_PKCS1_2048_8192_SHA256`, of a modulus and an exponent, a message and a signature. -/
  rsaVerify : List UInt8 → List UInt8 → List UInt8 → List UInt8 → Bool
  /-- `ECDSA_P256_SHA256_FIXED`, of an uncompressed point, a message and a signature. -/
  p256Verify : List UInt8 → List UInt8 → List UInt8 → Bool
  /-- `blake3::derive_key`. -/
  deriveKey : String → List UInt8 → Bytes 32
  /-- What a float literal reads as, cast to an `i64`; none where it is out of an `f64`'s range. -/
  floatAsI64 : FloatLit → Option Int64
  /-- Whether an integer of more than 64 bits is in an `f64`'s range. -/
  inRange : Int → Bool

/-- Why a token failed. -/
inductive IdTokenError where
  | malformed (why : String)
  | unsupportedAlgorithm (alg : String)
  | unknownKey (kid : Option String)
  | badSignature
  | wrongIssuer (expected got : String)
  | wrongAudience (got : List String)
  | expired (exp : Int64)
  | notYetValid (iat : Int64)
  | wrongNonce (node : String)
  | missingClaim (name : String)
deriving DecidableEq

/-! ## Keys -/

/-- One JSON Web Key. -/
structure Jwk where
  kty : String
  kid : Option String
  alg : Option String
  keyUse : Option String
  n : Option String
  e : Option String
  crv : Option String
  x : Option String
  y : Option String
deriving DecidableEq

/-- An issuer's published keys. -/
structure Jwks where
  keys : List Jwk
deriving DecidableEq

/-- The two signature algorithms accepted. -/
inductive Alg where
  | rs256
  | es256
deriving DecidableEq

def Alg.name : Alg → String
  | .rs256 => "RS256"
  | .es256 => "ES256"

/-- The algorithm a header names. -/
def Alg.ofName : String → Except IdTokenError Alg
  | "RS256" => .ok .rs256
  | "ES256" => .ok .es256
  | other => .error (.unsupportedAlgorithm other)

/-- Whether a key is one this algorithm can use. -/
def Alg.fits (alg : Alg) (jwk : Jwk) : Bool :=
  (match alg with
    | .rs256 => jwk.kty = "RSA"
    | .es256 => jwk.kty = "EC" && jwk.crv = some "P-256") &&
  jwk.alg.all (· = alg.name) && jwk.keyUse.all (· = "sig")

/-- Big-endian integers in a key are minimal, a stray zero apart. -/
def stripLeadingZeros (b : List UInt8) : List UInt8 := b.dropWhile (· = 0)

/-- A field of a key, which must be there. -/
def jwkField (v : Option String) : Except IdTokenError (List UInt8) :=
  orError (v.bind fun text => Base64.decode text.toList) (.malformed "jwk field")

/-- The nonce that binds a token to a node. -/
def OidcNonce.forNode [Jose] (node : NodeId) : String :=
  String.ofList (Base64.encode (Jose.deriveKey OIDC_NONCE_CONTEXT node.toList).toList)

section

variable [Jose]

/-- `verify_with`: an error is a key that cannot be used. -/
def verifyWith (alg : Alg) (jwk : Jwk) (msg sig : List UInt8) : Except IdTokenError Bool :=
  match alg with
  | .rs256 => do
    let n ← jwkField jwk.n
    let e ← jwkField jwk.e
    return Jose.rsaVerify (stripLeadingZeros n) (stripLeadingZeros e) msg sig
  | .es256 => do
    let x ← jwkField jwk.x
    let y ← jwkField jwk.y
    ensure (¬(x.length ≠ 32 ∨ y.length ≠ 32)) (.malformed "P-256 coordinate length")
    return Jose.p256Verify (0x04 :: x ++ y) msg sig

/-! ## Claims -/

mutual

/-- Whether `serde_json` reads it as a value: of at most `n` nested containers, and with no number
out of range. -/
def Json.isValue (n : Nat) : Json → Bool
  | .num i => decide (-2 ^ 63 ≤ i ∧ i < 2 ^ 64) || Jose.inRange i
  | .float f => (Jose.floatAsI64 f).isSome
  | .arr xs => decide (n ≠ 0) && Json.areValues (n - 1) xs
  | .obj ms => decide (n ≠ 0) && Json.haveValues (n - 1) ms
  | _ => true

def Json.areValues (n : Nat) : List Json → Bool
  | [] => true
  | x :: xs => Json.isValue n x && Json.areValues n xs

def Json.haveValues (n : Nat) : List (String × Json) → Bool
  | [] => true
  | m :: ms => Json.isValue n m.2 && Json.haveValues n ms

end

/-- The nesting `serde_json` reads. -/
def MAX_NESTING : Nat := 127

/-- A token's payload: its members as they stand. -/
abbrev Claims := List (String × Json)

/-- `Map::get`: of repeated members, the last. -/
def Claims.get (p : Claims) (name : String) : Option Json := p.reverse.lookup name

/-- The payload's deserialiser. -/
def Claims.ofJson : Json → Option Claims
  | .obj ms => if Json.isValue MAX_NESTING (.obj ms) then some ms else none
  | _ => none

/-- `Value::as_str`. -/
def asStr : Json → Option String
  | .str cs => some (String.ofList cs)
  | _ => none

/-- `as_i64`, else `as_f64` cast to an `i64`: the cast saturates. -/
def asI64 : Json → Option Int64
  | .num i => some (Int64.ofIntClamp i)
  | .float f => Jose.floatAsI64 f
  | _ => none

/-- A required string claim. -/
def strClaim (p : Claims) (name : String) : Except IdTokenError String :=
  orError ((p.get name).bind asStr) (.missingClaim name)

/-- An optional integer claim. -/
def intClaim (p : Claims) (name : String) : Except IdTokenError (Option Int64) :=
  match p.get name with
  | none => .ok none
  | some v => some <$> orError (asI64 v) (.missingClaim name)

/-- The `aud` claim's values. -/
def audClaim (p : Claims) : Except IdTokenError (List String) :=
  match p.get "aud" with
  | some (.str cs) => .ok [String.ofList cs]
  | some (.arr items) => orError (items.mapM asStr) (.missingClaim "aud")
  | _ => .error (.missingClaim "aud")

/-- Whether the token marks its email verified; some providers send the string. -/
def emailVerified (p : Claims) : Bool :=
  match p.get "email_verified" with
  | some (.bool b) => b
  | some (.str cs) => String.ofList cs = "true"
  | _ => false

/-- The `groups` claim's strings. -/
def groupsClaim (p : Claims) : List String :=
  match p.get "groups" with
  | some (.arr items) => items.filterMap asStr
  | _ => []

/-! ## Tokens -/

/-- The JWS header's fields that the verifier reads. -/
structure Header where
  alg : String
  kid : Option String
  crit : Option Json

/-- A header from its fields. -/
def Header.ofFields (f : String → Option Json) : Option Header := do
  let alg ← field f "alg"
  let kid ← optField f "kid"
  let crit ← match f "crit" with
    | none | some .null => some none
    | some j => if Json.isValue (MAX_NESTING - 1) j then some (some j) else none
  return ⟨alg, kid, crit⟩

/-- The header's deserialiser: of an object, or of an array of the three fields. -/
def Header.ofJson : Json → Option Header
  | .obj ms => (Json.openFields ["alg", "kid", "crit"] (.obj ms)).bind Header.ofFields
  | .arr [alg, kid, crit] =>
    Header.ofFields fun k => [("alg", alg), ("kid", kid), ("crit", crit)].lookup k
  | _ => none

/-- A header's bytes: its other members are passed over. -/
def Header.read (bytes : List UInt8) : Option Header :=
  (Json.parseOpen ["alg", "kid", "crit"] bytes).bind Header.ofJson

/-- A payload's bytes. -/
def Claims.read (bytes : List UInt8) : Option Claims :=
  (utf8Decode bytes).bind fun cs => (Json.parse cs).bind Claims.ofJson

/-- `decode_json`: one segment, decoded and parsed. -/
def decodeJson {α : Type} (read : List UInt8 → Option α) (seg : List Char) (what : String) :
    Except IdTokenError α := do
  let bytes ← orError (Base64.decode seg) (.malformed (what ++ " is not base64url"))
  orError (read bytes) (.malformed (what ++ " is not a JSON object"))

/-- A parsed compact JWS. -/
structure Jws where
  header : Header
  alg : Alg
  payload : Claims
  signingInput : List Char
  signature : List UInt8

/-- `Jws::parse`. -/
def Jws.parse (token : IdToken) : Except IdTokenError Jws :=
  match token.toList.splitOn '.' with
  | [h, p, sig] => do
    let header ← decodeJson Header.read h "header"
    ensure (header.crit.isNone) (.malformed "critical header extensions")
    let alg ← Alg.ofName header.alg
    let payload ← decodeJson Claims.read p "payload"
    let signature ← orError (Base64.decode sig) (.malformed "signature is not base64url")
    return { header, alg, payload, signingInput := h ++ '.' :: p, signature }
  | _ => .error (.malformed "not a three-part compact JWS")

/-- `IdToken::unverified_issuer`. -/
def unverifiedIssuer (token : IdToken) : Except IdTokenError Issuer := do
  let jws ← Jws.parse token
  strClaim jws.payload "iss"

/-- `IdToken::unverified_kid`. -/
def unverifiedKid (token : IdToken) : Except IdTokenError (Option String) := do
  let jws ← Jws.parse token
  return jws.header.kid

/-- `Jws::verify_signature`. -/
def Jws.verifySignature (jws : Jws) (jwks : Jwks) : Except IdTokenError Unit := do
  let candidates := (jwks.keys.filter fun k => jws.header.kid.all fun kid => k.kid = some kid).filter
    jws.alg.fits
  ensure (candidates ≠ []) (.unknownKey jws.header.kid)
  ensure (candidates.any fun k =>
    (verifyWith jws.alg k (utf8 jws.signingInput) jws.signature).toOption.getD false) .badSignature

/-- A token, with the key the connection authenticated. -/
structure IdentityClaim where
  node : NodeId
  idToken : IdToken
deriving DecidableEq

/-- `verify_claim`. -/
def verifyClaim (claim : IdentityClaim) (issuer : Issuer) (jwks : Jwks) (audiences : List Audience)
    (now : Int64) : Except IdTokenError Principal := do
  let jws ← Jws.parse claim.idToken
  jws.verifySignature jwks
  let p := jws.payload
  let iss ← strClaim p "iss"
  ensure (iss = issuer) (.wrongIssuer issuer iss)
  let aud ← audClaim p
  ensure (aud.any fun a => audiences.contains a) (.wrongAudience aud)
  let exp ← intClaim p "exp"
  let exp ← orError exp (.missingClaim "exp")
  ensure (¬now > satAdd exp CLOCK_SKEW_SECS) (.expired exp)
  let iat ← intClaim p "iat"
  forEach (fun iat => ensure (¬iat > satAdd now CLOCK_SKEW_SECS) (.notYetValid iat)) iat.toList
  let nonce ← strClaim p "nonce"
  ensure (nonce = OidcNonce.forNode claim.node) (.wrongNonce claim.node.hex)
  let subject ← strClaim p "sub"
  return {
    issuer := iss
    subject
    email := if emailVerified p then (p.get "email").bind asStr else none
    org := if iss = GOOGLE_ISSUER then (p.get "hd").bind asStr else none
    groups := groupsClaim p
    notAfter := exp }

end

end Wires
