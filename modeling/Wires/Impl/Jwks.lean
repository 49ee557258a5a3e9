import Wires.Framework.Run
import Wires.Impl.HeldView
import Wires.Impl.Host
import Wires.Impl.IdToken

/-!
# Issuers' keys

`wires/caller/jwks.rs` as a host and a directory use it, with no cache on
disk, and `is_loopback` of `wires/net.rs`: `KeyFetcher` is what its verifications in flight share, and
`KeyFetcher.step` one step of one of them, each of what they share being read
or changed in one step. What a `GET` answers is the environment's.
`Directory.principal` is what a directory makes of a token.
-/

namespace Wires

/-- `IpAddr`. -/
inductive IpAddr where
  | v4 (bits : BitVec 32)
  | v6 (bits : BitVec 128)
deriving DecidableEq

namespace IpAddr

/-- `Ipv4Addr::octets`. -/
def octet (a : BitVec 32) (i : Nat) : BitVec 8 := a.extractLsb' (24 - 8 * i) 8

/-- `Ipv4Addr::is_loopback`. -/
def isLoopback (a : BitVec 32) : Bool := octet a 0 = 127

end IpAddr

/-- `url::Host`. -/
inductive UrlHost where
  | domain (name : String)
  | ipv4 (addr : BitVec 32)
  | ipv6 (addr : BitVec 128)
deriving DecidableEq

/-- URLs, and the texts of errors, as the libraries under the fetcher have them. -/
class Web where
  Url : Type
  /-- `Url::parse`. -/
  parse : String → Except String Url
  scheme : Url → String
  host : Url → Option UrlHost
  display : Url → String
  /-- A text in a message that quotes it. -/
  quoted : String → String
  /-- What `serde_json` says of bytes it does not read. -/
  serdeError : List UInt8 → String
  /-- What `std::str::from_utf8` says of bytes that are not UTF-8. -/
  utf8Error : List UInt8 → String

/-- `net::is_loopback`. -/
def Web.isLoopback [Web] (url : Web.Url) : Bool :=
  match Web.host url with
  | some (.ipv4 ip) => IpAddr.isLoopback ip
  | some (.ipv6 ip) => ip = 1
  | some (.domain d) => eqIgnoreCase d "localhost"
  | none => false

/-- Cache lifetime where the response gives none, in seconds. -/
def DEFAULT_TTL : Int64 := 3600

/-- The shortest cache lifetime, and the least time between forced or failed fetches. -/
def MIN_TTL : Int64 := 60

/-- The longest cache lifetime. -/
def MAX_TTL : Int64 := 86400

/-- The largest document accepted. -/
def MAX_DOC_BYTES : Nat := 256 * 1024

/-! ## Documents -/

/-- A key from its fields. -/
def Jwk.ofFields (f : String → Option Json) : Option Jwk := do
  let kty ← field f "kty"
  let kid ← optField f "kid"
  let alg ← optField f "alg"
  let keyUse ← optField f "use"
  let n ← optField f "n"
  let e ← optField f "e"
  let crv ← optField f "crv"
  let x ← optField f "x"
  let y ← optField f "y"
  return { kty, kid, alg, keyUse, n, e, crv, x, y }

/-- A key's deserialiser. -/
def Jwk.ofJson (j : Json) : Option Jwk :=
  (j.openFields ["kty", "kid", "alg", "use", "n", "e", "crv", "x", "y"]).bind Jwk.ofFields

/-- A key set's deserialiser. -/
def Jwks.ofJson (j : Json) : Option Jwks := do
  let f ← j.openFields ["keys"]
  match f "keys" with
  | some (.arr keys) => return ⟨← keys.mapM Jwk.ofJson⟩
  | _ => none

/-- `Jwks::has_kid`. -/
def Jwks.hasKid (jwks : Jwks) (kid : String) : Bool := jwks.keys.any fun k => k.kid = some kid

variable [Web]

/-- The part of a discovery document that is used. -/
structure Discovery where
  issuer : String
  authorizationEndpoint : Web.Url
  tokenEndpoint : Web.Url
  jwksUri : Web.Url

/-- A URL's deserialiser. -/
def urlField (f : String → Option Json) (k : String) : Option Web.Url :=
  (field f k).bind fun s : String => (Web.parse s).toOption

/-- A discovery document's deserialiser. -/
def Discovery.ofJson (j : Json) : Option Discovery := do
  let f ← j.openFields ["issuer", "authorization_endpoint", "token_endpoint", "jwks_uri"]
  let issuer ← field f "issuer"
  let authorizationEndpoint ← urlField f "authorization_endpoint"
  let tokenEndpoint ← urlField f "token_endpoint"
  let jwksUri ← urlField f "jwks_uri"
  return { issuer, authorizationEndpoint, tokenEndpoint, jwksUri }

/-! ## Errors -/

/-- A list of quoted texts in a message. -/
def quotedList (xs : List String) : String :=
  "[" ++ String.intercalate ", " (xs.map Web.quoted) ++ "]"

/-- `IdTokenError`'s text. -/
def IdTokenError.display : IdTokenError → String
  | .malformed why => "malformed: " ++ why
  | .unsupportedAlgorithm alg =>
    "unsupported signing algorithm " ++ Web.quoted alg ++ " (only RS256 and ES256 are accepted)"
  | .unknownKey kid => "no signing key in the issuer's JWKS matches kid " ++
    ((kid.map fun k => "Some(" ++ Web.quoted k ++ ")").getD "None")
  | .badSignature => "signature does not verify"
  | .wrongIssuer expected got =>
    "issuer " ++ Web.quoted got ++ " is not the expected " ++ Web.quoted expected
  | .wrongAudience got => "audience " ++ quotedList got ++ " is not accepted"
  | .expired exp => "expired at " ++ toString exp.toInt
  | .notYetValid iat => "issued in the future (iat " ++ toString iat.toInt ++ ")"
  | .wrongNonce node => "nonce does not bind this token to node " ++ node
  | .missingClaim name => "missing or mistyped claim " ++ Web.quoted name

/-! ## Fetching -/

/-- `require_secure`. -/
def requireSecure (url : Web.Url) : Except Anyhow Unit :=
  ensure (Web.scheme url = "https" ∨ Web.scheme url = "http" ∧ Web.isLoopback url = true)
    ["refusing " ++ Web.scheme url ++ ":// URL " ++ Web.display url ++
      ": OIDC endpoints must be https (http is allowed only to a loopback host)"]

/-- `discovery_url`. -/
def discoveryUrl (issuer : Issuer) : Except Anyhow Web.Url := do
  let base := String.ofList (issuer.toList.rdropWhile (· = '/'))
  let url ← context ("issuer " ++ Web.quoted issuer ++ " is not a URL")
    (mapErr (fun why => [why]) (Web.parse (base ++ "/.well-known/openid-configuration")))
  requireSecure url
  return url

/-- What a `GET` answers: a body, and the `max-age` of its caching header, or why there is none. -/
abbrev Response := Except Anyhow (List UInt8 × Option Int64)

/-- `KeyFetcher::get`. -/
def received (url : Web.Url) (response : Response) : Except Anyhow (List UInt8 × Option Int64) := do
  requireSecure url
  let (body, maxAge) ← response
  ensure (¬body.length > MAX_DOC_BYTES) ["GET " ++ Web.display url ++ ": document larger than " ++
    toString MAX_DOC_BYTES ++ " bytes"]
  return (body, maxAge)

/-- `discover`, once its document is there. -/
def discovered (issuer : Issuer) (url : Web.Url) (response : Response) : Except Anyhow Discovery := do
  let (body, _) ← received url response
  let doc ← orError ((utf8Decode body).bind fun cs => (Json.parse cs).bind Discovery.ofJson)
    ["discovery document at " ++ Web.display url ++ " is not valid", Web.serdeError body]
  ensure (doc.issuer = issuer) ["discovery document at " ++ Web.display url ++ " names issuer " ++
    Web.quoted doc.issuer ++ ", not " ++ Web.quoted issuer]
  requireSecure doc.authorizationEndpoint
  requireSecure doc.tokenEndpoint
  requireSecure doc.jwksUri
  return doc

/-- `fetch`, once the key set is there: the set, and how long it is kept. -/
def fetchedKeys (doc : Discovery) (response : Response) : Except Anyhow (Jwks × Int64) := do
  let (body, maxAge) ← received doc.jwksUri response
  let text ← orError (utf8Decode body) ["JWKS is not UTF-8", Web.utf8Error body]
  let jwks ← orError ((Json.parse text).bind Jwks.ofJson)
    ["JWKS at " ++ Web.display doc.jwksUri ++ " is not valid",
      "id token rejected: " ++ (IdTokenError.malformed "jwks").display]
  return (jwks, max MIN_TTL (min (maxAge.getD DEFAULT_TTL) MAX_TTL))

/-! ## Verifying -/

variable [Jose]

/-- `IdpTrust::audiences_for_claim`. -/
def IdpTrust.audiencesForClaim (t : IdpTrust) (claim : IdentityClaim) : List Audience :=
  match unverifiedIssuer claim.idToken with
  | .ok iss => t.audiencesFor iss
  | .error _ => []

/-- `KeyFetcher::verify`, before the keys: the token's issuer, if it is trusted, and its `kid`. -/
def opened (claim : IdentityClaim) (trusted : List Issuer) :
    Except VerifyError (Issuer × Option String) := do
  let issuer ← mapErr (fun e => .rejected (IdTokenError.display e)) (unverifiedIssuer claim.idToken)
  ensure (issuer ∈ trusted) (.untrusted issuer)
  let kid ← mapErr (fun e => .rejected (IdTokenError.display e)) (unverifiedKid claim.idToken)
  return (issuer, kid)

/-- `KeyFetcher::verify`, once the keys are there. A claim that is only expired says whose it was. -/
def judged (claim : IdentityClaim) (issuer : Issuer) (audiences : List Audience) (now : Int64)
    (keys : Except Anyhow Jwks) : Except VerifyError Principal := do
  let jwks ← mapErr (fun e => .unavailable (oneLine e)) keys
  match verifyClaim claim issuer jwks audiences now with
  | .error (.expired exp) =>
    match verifyClaim claim issuer jwks audiences exp with
    | .ok principal => .error (.expired principal)
    | .error e => .error (.rejected e.display)
  | other => mapErr (fun e => .rejected e.display) other

/-- `KeyFetcher::verify` as `Identities::verify_token` and a directory call it, for what `keys` gives. -/
def KeyFetcher.verify (trust : IdpTrust) (claim : IdentityClaim) (now : Int64)
    (keys : Issuer → Option String → Except Anyhow Jwks) : Except VerifyError Principal := do
  let (issuer, kid) ← opened claim trust.issuers
  judged claim issuer (trust.audiencesForClaim claim) now (keys issuer kid)

/-- `Directory::principal`. -/
def Directory.principal (caller : NodeId) (idToken : IdToken) (policy : Policy) (now : Int64)
    (keys : Issuer → Option String → Except Anyhow Jwks) : Option Principal :=
  let trust : IdpTrust := ⟨policy.issuers.entries.map fun e => (e.1, e.2.audiences)⟩
  (KeyFetcher.verify trust ⟨caller, idToken⟩ now keys).toOption

/-! ## The fetcher -/

/-- A cached key set, and when it goes stale. -/
structure Cached where
  expiresAt : Int64
  jwks : Jwks

/-- Where a verification is. -/
inductive VerifyStage where
  /-- `keys` is called. -/
  | keys (issuer : Issuer) (kid : Option String)
  /-- The cached set lacks the `kid`. -/
  | lacks (issuer : Issuer) (jwks : Jwks)
  /-- The keys must be fetched, unless that failed a short time ago. -/
  | mayFetch (issuer : Issuer)
  | discovers (issuer : Issuer)
  /-- The discovery document is asked for. -/
  | awaitsDoc (issuer : Issuer) (url : Web.Url)
  /-- The key set is asked for. -/
  | awaitsKeys (issuer : Issuer) (doc : Discovery)
  /-- The fetch ended, and its failure is not remembered. -/
  | ends (issuer : Issuer) (result : Except Anyhow Jwks)
  | done (verdict : Except VerifyError Principal)

/-- One verification of a token, under the issuers trusted when it began. -/
structure VerifyCall where
  trust : IdpTrust
  claim : IdentityClaim
  now : Int64
  stage : VerifyStage

/-- What verifications share, and the verifications. -/
structure KeyFetcher (ι : Type) where
  keys : Issuer → Option Cached
  discovery : Issuer → Option Discovery
  forced : Issuer → Option Int64
  failed : Issuer → Option (Int64 × String)
  calls : ι → Option VerifyCall

/-- A step of a verification. -/
inductive KeyEvent (ι : Type) where
  | verify (i : ι) (trust : IdpTrust) (claim : IdentityClaim) (now : Int64)
  /-- Look into the cache. -/
  | cached (i : ι)
  /-- Look at when keys were last fetched again for a `kid`. -/
  | force (i : ι)
  /-- Look at when a fetch last failed. -/
  | tries (i : ι)
  /-- Look for a discovery document already there. -/
  | discover (i : ι)
  | document (i : ι) (response : Response)
  | keySet (i : ι) (response : Response)
  /-- Remember how the fetch ended. -/
  | settle (i : ι)

namespace VerifyCall

/-- It comes to a stage. -/
def goes (c : VerifyCall) (stage : VerifyStage) : VerifyCall := { c with stage }

/-- `keys` answered. -/
def answered (c : VerifyCall) (issuer : Issuer) (keys : Except Anyhow Jwks) : VerifyCall :=
  c.goes (.done (judged c.claim issuer (c.trust.audiencesForClaim c.claim) c.now keys))

end VerifyCall

namespace KeyFetcher

variable {ι : Type} [DecidableEq ι]

/-- `KeyFetcher::new`. -/
def new : KeyFetcher ι := ⟨fun _ => none, fun _ => none, fun _ => none, fun _ => none, fun _ => none⟩

/-- Verification `i` comes to be, or to a stage. -/
def goes (f : KeyFetcher ι) (i : ι) (c : VerifyCall) : KeyFetcher ι :=
  { f with calls := Function.update f.calls i (some c) }

/-- One step of one verification. -/
def step (f : KeyFetcher ι) : KeyEvent ι → Option (KeyFetcher ι)
  | .verify i trust claim now =>
    match f.calls i with
    | some _ => none
    | none => some (f.goes i ⟨trust, claim, now, match opened claim trust.issuers with
      | .error e => .done (.error e)
      | .ok (issuer, kid) => .keys issuer kid⟩)
  | .cached i =>
    match f.calls i with
    | some c@⟨_, _, now, .keys issuer kid⟩ =>
      match (f.keys issuer).filter fun k => k.expiresAt > now with
      | some k =>
        if kid.all k.jwks.hasKid then some (f.goes i (c.answered issuer (.ok k.jwks)))
        else some (f.goes i (c.goes (.lacks issuer k.jwks)))
      | none => some (f.goes i (c.goes (.mayFetch issuer)))
    | _ => none
  | .force i =>
    match f.calls i with
    | some c@⟨_, _, now, .lacks issuer jwks⟩ =>
      if (f.forced issuer).any fun t => now - t < MIN_TTL then
        some (f.goes i (c.answered issuer (.ok jwks)))
      else some { f.goes i (c.goes (.mayFetch issuer)) with
        forced := Function.update f.forced issuer (some now) }
    | _ => none
  | .tries i =>
    match f.calls i with
    | some c@⟨_, _, now, .mayFetch issuer⟩ =>
      match (f.failed issuer).filter fun p => now - p.1 < MIN_TTL with
      | some (at_, why) => some (f.goes i (c.answered issuer (.error [why ++ " (not asked again for " ++
          toString (MIN_TTL - (now - at_)).toInt ++ "s)"])))
      | none => some (f.goes i (c.goes (.discovers issuer)))
    | _ => none
  | .discover i =>
    match f.calls i with
    | some c@⟨_, _, _, .discovers issuer⟩ =>
      match f.discovery issuer with
      | some doc => some (f.goes i (c.goes (.awaitsKeys issuer doc)))
      | none =>
        match discoveryUrl issuer with
        | .ok url => some (f.goes i (c.goes (.awaitsDoc issuer url)))
        | .error e => some (f.goes i (c.goes (.ends issuer (.error e))))
    | _ => none
  | .document i response =>
    match f.calls i with
    | some c@⟨_, _, _, .awaitsDoc issuer url⟩ =>
      match discovered issuer url response with
      | .ok doc => some { f.goes i (c.goes (.awaitsKeys issuer doc)) with
          discovery := Function.update f.discovery issuer (some doc) }
      | .error e => some (f.goes i (c.goes (.ends issuer (.error e))))
    | _ => none
  | .keySet i response =>
    match f.calls i with
    | some c@⟨_, _, now, .awaitsKeys issuer doc⟩ =>
      match fetchedKeys doc response with
      | .ok (jwks, ttl) => some { f.goes i (c.goes (.ends issuer (.ok jwks))) with
          keys := Function.update f.keys issuer (some ⟨now + ttl, jwks⟩) }
      | .error e => some (f.goes i (c.goes (.ends issuer (.error e))))
    | _ => none
  | .settle i =>
    match f.calls i with
    | some c@⟨_, _, now, .ends issuer result⟩ => some { f.goes i (c.answered issuer result) with
        failed := Function.update f.failed issuer (match result with
          | .ok _ => none
          | .error e => some (now, oneLine e)) }
    | _ => none

end KeyFetcher

end Wires
