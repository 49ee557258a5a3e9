import Wires.Impl.OAuth

/-!
# The gateway's clients

`wires/gateway/clients.rs` and `client` of `wires/gateway/oauth.rs`: a client
is named by the URL of its metadata document, or by an id that is its
registration under the gateway's key. What the fetch of a document answers is
the environment's; a cached client is what an earlier answer made of the same
id.
-/

namespace Wires

/-- HMAC-SHA256. -/
class Hmac where
  Key : Type
  sign : Key → List UInt8 → Bytes 32

/-- `hmac::verify`. -/
def Hmac.verify [Hmac] (key : Hmac.Key) (message tag : List UInt8) : Bool :=
  tag = (Hmac.sign key message).toList

/-- The components of a `Url` that only a client's redirect URIs are asked for. -/
class UrlParts [Web] where
  hasHost : Web.Url → Bool
  username : Web.Url → String
  password : Web.Url → Option String

/-- `Value::is_object`. -/
def Json.isObject : Json → Bool
  | .obj _ => true
  | _ => false

/-- `Value::as_array`. -/
def Json.asArray : Json → Option (List Json)
  | .arr xs => some xs
  | _ => none

namespace OAuth

/-- The prefix of the id of a registered client. -/
def DCR_PREFIX : String := "wires-dcr."

/-- Longest client name kept (characters). -/
def MAX_CLIENT_NAME : Nat := 100

/-- Most redirect URIs a client may register or declare. -/
def MAX_REDIRECT_URIS : Nat := 8

/-- Longest redirect URI accepted (bytes). -/
def MAX_REDIRECT_URI_LEN : Nat := 1024

/-- An RFC 7591 registration request. -/
structure RegistrationRequest where
  redirectUris : List String
  clientName : Option String

/-- The MAC'd body of a registered client's id: its name, its redirect URIs, when it was issued. -/
structure Registered where
  n : String
  r : List String
  t : Int64

instance : Serde Registered where
  toJson r := .obj [("n", toJson r.n), ("r", toJson r.r), ("t", toJson r.t)]
  ofJson j := do
    let f ← j.openFields ["n", "r", "t"]
    let n ← field f "n"
    let r ← field f "r"
    let t ← field f "t"
    return { n, r, t }

/-- The body as it stands in the id. -/
def Registered.body (reg : Registered) : List Char := Base64.encode (utf8 (jsonText reg))

variable [Web] [Origin] [UrlParts]

/-- `valid_redirect_uri`. -/
def validRedirectUri (uri : Web.Url) : Bool :=
  (Origin.fragment uri).isNone && UrlParts.hasHost uri &&
    (Web.scheme uri = "https" || (Web.scheme uri = "http" && Web.isLoopback uri))

/-! ## Registered clients -/

/-- `register`, of one redirect URI. -/
def registerUri (raw : String) : Except String Web.Url := do
  let uri ← mapErr (fun _ => "bad redirect URI " ++ raw) (Web.parse raw)
  ensure (validRedirectUri uri = true)
    ("redirect URI " ++ raw ++ " must be https, or http on a loopback host")
  return uri

/-- A client's name as it is kept. -/
def keptName (name : String) : String := String.ofList (name.toList.take MAX_CLIENT_NAME)

/-- The text an id has of a body. -/
def clientId [Hmac] (key : Hmac.Key) (body : List Char) : String :=
  DCR_PREFIX ++ String.ofList body ++ "." ++
    String.ofList (Base64.encode (Hmac.sign key (utf8 body)).toList)

/-- `ClientKey::register`. -/
def register [Hmac] (key : Hmac.Key) (req : RegistrationRequest) (now : Int64) :
    Except String Client := do
  ensure (req.redirectUris ≠ []) "redirect_uris is required"
  ensure (¬req.redirectUris.length > MAX_REDIRECT_URIS)
    ("at most " ++ toString MAX_REDIRECT_URIS ++ " redirect_uris")
  ensure (¬req.redirectUris.any fun u => byteLen u > MAX_REDIRECT_URI_LEN)
    ("a redirect URI is longer than " ++ toString MAX_REDIRECT_URI_LEN ++ " bytes")
  let uris ← req.redirectUris.mapM registerUri
  let name := ((req.clientName.filter fun n => !isBlank n).map keptName).getD "an MCP client"
  let reg : Registered := ⟨name, req.redirectUris, now⟩
  return ⟨clientId key reg.body, name, uris⟩

/-- Why a client's id is refused that is not the gateway's. -/
def unknownClient : String := "unknown client_id"

/-- The body and the tag in a registered client's id. -/
def idParts (id : String) : Option (List Char × List Char) :=
  if DCR_PREFIX.toList.isPrefixOf id.toList then
    splitOnce '.' (id.toList.drop DCR_PREFIX.toList.length)
  else none

/-- `ClientKey::registered`. -/
def registered [Hmac] (key : Hmac.Key) (id : String) : Except String Client := do
  let (body, mac) ← orError (idParts id) unknownClient
  let mac ← orError (Base64.decode mac) unknownClient
  ensure (Hmac.verify key (utf8 body) mac = true) unknownClient
  let reg : Registered ← orError ((Base64.decode body).bind fromSlice) unknownClient
  let uris ← mapErr (fun _ => unknownClient) (reg.r.mapM Web.parse)
  return ⟨id, reg.n, uris⟩

/-! ## Metadata documents -/

/-- `validate_metadata`, of one redirect URI. -/
def metadataUri (u : Json) : Except String Web.Url :=
  orError ((u.asStr.bind fun s => (Web.parse s).toOption).filter validRedirectUri)
    ("bad redirect URI " ++ String.ofList u.canonical ++ " in the metadata document")

/-- `validate_metadata`. -/
def validateMetadata (url : Web.Url) (body : List UInt8) : Except String Client := do
  let doc ← orError ((utf8Decode body).bind Json.parse) "the client metadata document is not JSON"
  ensure (doc.isObject = true) "the client metadata document is not a JSON object"
  ensure ((doc.get "client_id").bind Json.asStr = some (Web.display url))
    "the client metadata document's client_id is not its own URL"
  let name ← orError (((doc.get "client_name").bind Json.asStr).filter fun n => !isBlank n)
    "the client metadata document has no client_name"
  forEach (fun other => ensure (other = "none") ("token_endpoint_auth_method " ++ other ++
    " is not supported (public clients only)"))
    ((doc.get "token_endpoint_auth_method").bind Json.asStr).toList
  let uris ← orError (((doc.get "redirect_uris").bind Json.asArray).filter fun a => !a.isEmpty)
    "the client metadata document has no redirect_uris"
  ensure (¬uris.length > MAX_REDIRECT_URIS) ("the client metadata document lists more than " ++
    toString MAX_REDIRECT_URIS ++ " redirect_uris")
  let redirectUris ← uris.mapM metadataUri
  return ⟨Web.display url, keptName name, redirectUris⟩

/-- `fetchable_metadata_url`. -/
def fetchableMetadataUrl (clientId : String) : Except String Web.Url := do
  let url ← mapErr (fun _ => "bad client_id URL") (Web.parse clientId)
  ensure (¬(Web.scheme url ≠ "https" ∨ Origin.path url = "/" ∨ (Origin.fragment url).isSome ∨
      UrlParts.username url ≠ "" ∨ (UrlParts.password url).isSome ∨ (Origin.hostStr url).isNone))
    "a URL client_id must be https with a path, and no fragment or credentials"
  return url

/-- `MetadataFetcher::client`, of what the fetch answers. -/
def metadataClient (clientId : String) (fetched : Except Anyhow (List UInt8)) :
    Except String Client := do
  let url ← fetchableMetadataUrl clientId
  let body ← mapErr (fun _ => "the client metadata document could not be fetched") fetched
  validateMetadata url body

/-- `client`. -/
def clientOf [Hmac] (key : Hmac.Key) (fetched : Except Anyhow (List UInt8)) (clientId : String) :
    Except String Client :=
  if isMetadataUrl clientId then metadataClient clientId fetched else registered key clientId

end OAuth

end Wires
