import Wires.Impl.Clients
import Wires.Impl.OAuth

/-!
# `POST /mcp`

`wires/gateway/mcp_http.rs`: which requests of a web user reach the MCP core
(`accept`, with the checks of `check_headers`), what comes of one once the
user's view is there (`posted`), and with which HTTP status. `WebGateway` is all
of the gateway: its authorization server (`OAuth`), the web users' views
(`Asks`), and any number of requests to `/mcp`, each a step at a time. A view is
asked for by a request to `/mcp`, by a sign-in's callback, or by a call under
way, for the session that it serves; `Gateway::tools_for` is what they all wait
for.
-/

namespace Wires

/-- `base64::STANDARD.decode`. -/
def Base64.decodeStandard (cs : List Char) : Option (List UInt8) :=
  let digits := cs.rdropWhile (· = '=')
  if cs.length % 4 = 0 ∧ cs.length ≤ digits.length + 2 ∧ '-' ∉ digits ∧ '_' ∉ digits then
    decode (digits.map fun c => if c = '+' then '-' else if c = '/' then '_' else c)
  else none

/-- `str::strip_prefix`. -/
def stripPrefix (pat cs : List Char) : Option (List Char) :=
  if pat.isPrefixOf cs then some (cs.drop pat.length) else none

/-- `str::strip_suffix`. -/
def stripSuffix (pat cs : List Char) : Option (List Char) :=
  if pat.isSuffixOf cs then some (cs.take (cs.length - pat.length)) else none

namespace McpHttp

def HEADER_MISMATCH : Int := -32020

/-- The version a legacy request with no `MCP-Protocol-Version` speaks. -/
def HEADERLESS_VERSION : String := "2025-03-26"

/-! ## Headers -/

/-- A request's headers, by their lowercase names. -/
abbrev Headers := List (String × List UInt8)

/-- `HeaderValue::to_str`. -/
def toStr (value : List UInt8) : Option String :=
  if value.all fun b => (32 ≤ b && b < 127) || b = 9 then
    some (String.ofList (value.map fun b => Char.ofNat b.toNat))
  else none

/-- A header, where it is a text. -/
def Headers.header (headers : Headers) (name : String) : Option String :=
  (headers.lookup name).bind toStr

/-- `decode_header_value`. -/
def decodeHeaderValue (v : String) : Option String :=
  match (stripPrefix "=?base64?".toList v.toList).bind (stripSuffix "?=".toList) with
  | some b64 => ((Base64.decodeStandard b64).bind utf8Decode).map String.ofList
  | none => some v

/-- The era of a request. -/
inductive Era where
  | modern
  /-- `initialize`, or the version a prior `initialize` agreed. -/
  | legacy (version : Option String)
deriving DecidableEq

/-- The version that was agreed. -/
def Era.negotiated : Era → Option String
  | .modern => none
  | .legacy version => version

def mismatch (what : String) : RpcError := .new HEADER_MISMATCH ("Header mismatch: " ++ what)

/-- A message's `method`. -/
def methodOf (msg : Json) : String := ((msg.get "method").bind Json.asStr).getD ""

/-- The version in a message's `_meta`. -/
def bodyVersion (msg : Json) : Option String :=
  (((msg.get "params").bind fun p => p.get "_meta").bind fun m => m.get META_PROTOCOL_VERSION).bind
    Json.asStr

/-- A text of a message's `params`. -/
def paramText (msg : Json) (field : String) : String :=
  (((msg.get "params").bind fun p => p.get field).bind Json.asStr).getD ""

/-- `MCP-Protocol-Version` agrees with the body's version. -/
def checkVersion (header body : Option String) : Except RpcError Unit :=
  match header with
  | none => .error (mismatch "MCP-Protocol-Version header is required")
  | some h => ensure (body = some h) (mismatch ("MCP-Protocol-Version header '" ++ h ++
      "' does not match body value '" ++ body.getD "(none)" ++ "'"))

/-- `Mcp-Method` agrees with the body's. -/
def checkMethod (header : Option String) (method : String) : Except RpcError Unit :=
  match header with
  | none => .error (mismatch "Mcp-Method header is required")
  | some m => ensure (m = method) (mismatch ("Mcp-Method header '" ++ m ++
      "' does not match body value '" ++ method ++ "'"))

/-- The field that `Mcp-Name` mirrors. -/
def nameField (method : String) : Option String :=
  if method = "tools/call" ∨ method = "prompts/get" then some "name"
  else if method = "resources/read" then some "uri"
  else none

/-- `Mcp-Name` agrees with the body's. -/
def checkName (header : Option String) (body : String) : Except RpcError Unit :=
  match header.map decodeHeaderValue with
  | none => .error (mismatch "Mcp-Name header is required")
  | some none => .error (mismatch "Mcp-Name header is not valid base64")
  | some (some n) => ensure (n = body) (mismatch ("Mcp-Name header value '" ++ n ++
      "' does not match body value '" ++ body ++ "'"))

/-- Whether a request is of the modern era. -/
def modern (headers : Headers) (msg : Json) : Bool :=
  (bodyVersion msg).isSome || (headers.header "mcp-protocol-version").any isModern

/-- `check_headers`. -/
def checkHeaders (headers : Headers) (msg : Json) : Except RpcError Era :=
  if modern headers msg then do
    checkVersion (headers.header "mcp-protocol-version") (bodyVersion msg)
    let v := (bodyVersion msg).getD ""
    ensure (v ∈ SUPPORTED_PROTOCOL_VERSIONS) (.unsupportedVersion v)
    checkMethod (headers.header "mcp-method") (methodOf msg)
    forEach (fun field => checkName (headers.header "mcp-name") (paramText msg field))
      (nameField (methodOf msg)).toList
    return .modern
  else if methodOf msg = "initialize" then .ok (.legacy none)
  else do
    let v := (headers.header "mcp-protocol-version").getD HEADERLESS_VERSION
    ensure (v ∈ SUPPORTED_PROTOCOL_VERSIONS) (.unsupportedVersion v)
    return .legacy (some v)

/-! ## Replies -/

/-- A reply: its status, the `error` of a `WWW-Authenticate` challenge (if there is one), and the
JSON in its body. -/
structure HttpReply where
  status : Nat
  challenge : Option (Option String)
  body : Option Json

/-- `json_reply`. -/
def jsonReply (status : Nat) (body : Json) : HttpReply := ⟨status, none, some body⟩

/-- A reply that is a JSON-RPC error. -/
def errorReply (status : Nat) (id : Json) (code : Int) (message : String) : HttpReply :=
  jsonReply status (errorResponse id (.new code message))

def unauthorized (error : Option String) : HttpReply := ⟨401, some error, none⟩

/-- `StatusCode::ACCEPTED`. -/
def noted : HttpReply := ⟨202, none, none⟩

/-- The code of a reply that is an error. -/
def errorCode (reply : Json) : Option Int :=
  match (reply.get "error").bind fun e => e.get "code" with
  | some (.num i) => if -2 ^ 63 ≤ i ∧ i < 2 ^ 63 then some i else none
  | _ => none

/-- `status_for`. -/
def statusFor (reply : Json) (modern : Bool) : Nat :=
  match errorCode reply with
  | some code =>
    if code ∈ [HEADER_MISMATCH, UNSUPPORTED_PROTOCOL_VERSION, PARSE_ERROR, INVALID_REQUEST] then 400
    else if code = METHOD_NOT_FOUND ∧ modern = true then 404
    else 200
  | none => 200

/-! ## A request -/

/-- A request that the user's view is asked for. -/
structure Accepted where
  session : OAuth.Session
  msg : Json
  id : Json
  era : Era

section

variable [Web]

/-- An `Origin`, where there is one, is one of those allowed. -/
def originOk (origins : List String) (headers : Headers) : Bool :=
  match headers.lookup "origin" with
  | none => true
  | some v => (toStr v).any fun o => origins.any fun a => eqIgnoreCase a o

/-- The bearer token. -/
def bearer (headers : Headers) : Option String :=
  (headers.header "authorization").bind fun v =>
    ((stripPrefix "Bearer ".toList v.toList) <|> (stripPrefix "bearer ".toList v.toList)).map
      fun t => String.ofList (trim t)

variable [Origin] [Jose]

/-- `post`, until it asks for the user's view. -/
def accept (gw : OAuth.Gateway) (origins : List String) (store : OAuth.Store) (headers : Headers)
    (body : List UInt8) (now : Int64) : Except HttpReply Accepted := do
  ensure (originOk origins headers) (errorReply 403 .null INVALID_REQUEST "origin not allowed")
  let token ← orError (bearer headers) (unauthorized none)
  let session ← orError ((store.session token now).filter fun s => s.resource = gw.urls.resource)
    (unauthorized (some "invalid_token"))
  let msg ← orError (((utf8Decode body).bind Json.parse).filter (Json.isValue MAX_NESTING))
    (errorReply 400 .null PARSE_ERROR ("parse error: " ++ Web.serdeError body))
  ensure msg.isObject (errorReply 400 .null INVALID_REQUEST
    "expected a single JSON-RPC request or notification")
  let id := msg.get "id"
  let era ← mapErr (fun e => jsonReply 400 (errorResponse (id.getD .null) e))
    (checkHeaders headers msg)
  let id ← orError id noted
  return ⟨session, msg, id, era⟩

end

/-- What comes of a request: a reply at once, or a call made on the user's view. -/
inductive Posted [Crypto] [Jaq] (root : NodeId) where
  | replies (reply : HttpReply)
  | calls (held : HeldView root) (id : Json) (version : Option String) (call : OutgoingCall)

section

variable [Crypto] [Web] [Jaq] {root : NodeId}

/-- The server a request is given to. -/
def Accepted.server (a : Accepted) (held : HeldView root) : McpServer :=
  { McpServer.new (servicesIn held.view) with negotiated := a.era.negotiated }

/-- `post`, once the user's view was asked for. -/
def Accepted.posted (a : Accepted) : Except Anyhow (HeldView root) → Posted root
  | .error e =>
    if Views.isNotAdmitted e then .replies (errorReply 403 a.id (-32000) OAuth.NOT_ADMITTED_HERE)
    else .replies (errorReply 503 a.id (-32000)
      "the gateway could not get your services from a directory; try again")
  | .ok held =>
    match ((a.server held).handle a.msg).2 with
    | .silent => .replies noted
    | .replies reply => .replies (jsonReply (statusFor reply (a.era = .modern)) reply)
    | .calls id version call => .calls held id version call

end

end McpHttp

open McpHttp

/-! ## The whole gateway -/

/-- Where a request to `/mcp` stands. -/
inductive PostStage [Crypto] [Jaq] (root : NodeId) where
  | refused (reply : HttpReply)
  | accepted (a : Accepted)
  /-- It waits for the view. -/
  | waits (a : Accepted)
  | done (a : Accepted) (outcome : Posted root)

section

variable [Crypto] [Web] [Jaq]

/-- The authorization server, the views with whose session each is asked for, and the requests to
`/mcp`, of which each asks under its own name. -/
structure WebGateway (root : NodeId) (β ι ρ : Type) where
  oauth : OAuth β ι
  asks : Asks root ρ
  users : ρ → Option OAuth.Session
  /-- The ask of a sign-in's callback. -/
  callbacks : ι → Option ρ
  posts : ρ → Option (PostStage root)

inductive WebGatewayEvent (β ι ρ : Type) where
  /-- A step of a request to the authorization server that needs no view. -/
  | oauth (e : OAuthEvent β ι)
  /-- A callback asks for the view of who signed in. -/
  | asks (r : ρ) (i : ι) (now : Int64) (at_ : Nat)
  /-- It has its answer. -/
  | viewed (i : ι) (code : Except Anyhow String) (victims : List String)
  | post (r : ρ) (headers : Headers) (body : List UInt8) (now : Int64)
  /-- The request asks for its user's view. -/
  | looks (r : ρ) (now : Int64) (at_ : Nat)
  /-- It has its answer. -/
  | posted (r : ρ)
  /-- The call of request `p` asks for its user's view again. -/
  | refresh (r p : ρ)
  /-- `ask` reads the view held. -/
  | read (r : ρ) (now : Int64)
  /-- The directories have answered `ask`, or the wait is over. -/
  | answer (r : ρ) (f : Fetch) (at_ : Nat)

namespace WebGateway

variable {root : NodeId} {β ι ρ : Type} [Origin] [Jose] [DecidableEq β] [DecidableEq ι] [DecidableEq ρ]

/-- What ask `r` came to. -/
def result (s : WebGateway root β ι ρ) (r : ρ) : Option (Except Anyhow (HeldView root)) :=
  match s.asks.stage r with
  | .done result => some result
  | _ => none

/-- Request `r` comes to a stage. -/
def goes (s : WebGateway root β ι ρ) (r : ρ) (stage : PostStage root) : WebGateway root β ι ρ :=
  { s with posts := Function.update s.posts r (some stage) }

/-- Ask `r` begins for a session. -/
def begins (s : WebGateway root β ι ρ) (r : ρ) (session : OAuth.Session) (e : AskEvent ρ) :
    Option (WebGateway root β ι ρ) :=
  if (s.users r).isSome then none
  else (s.asks.step e).map fun asks =>
    { s with asks, users := Function.update s.users r (some session) }

/-- One step. -/
def step (gw : OAuth.Gateway) (origins : List String) (s : WebGateway root β ι ρ) :
    WebGatewayEvent β ι ρ → Option (WebGateway root β ι ρ)
  | .oauth (.viewed _ _ _ _) => none
  | .oauth e => (s.oauth.step gw e).map fun oauth => { s with oauth }
  | .asks r i now at_ =>
    match s.oauth.requests i, s.callbacks i, s.posts r with
    | some (.viewing _ _ _ session _), none, none =>
      (s.begins r session (.view r session.idToken session.notAfter now at_)).map fun s =>
        { s with callbacks := Function.update s.callbacks i (some r) }
    | _, _, _ => none
  | .viewed i code victims =>
    match (s.callbacks i).bind s.result with
    | some result =>
      (s.oauth.step gw (.viewed i (result.map fun h => servicesIn h.view) code victims)).map
        fun oauth => { s with oauth }
    | none => none
  | .post r headers body now =>
    match s.posts r, s.users r with
    | none, none =>
      match accept gw origins s.oauth.store headers body now with
      | .error reply => some (s.goes r (.refused reply))
      | .ok a => some (s.goes r (.accepted a))
    | _, _ => none
  | .looks r now at_ =>
    match s.posts r with
    | some (.accepted a) =>
      (s.begins r a.session (.view r a.session.idToken a.session.notAfter now at_)).map fun s =>
        s.goes r (.waits a)
    | _ => none
  | .posted r =>
    match s.posts r, s.result r with
    | some (.waits a), some result => some (s.goes r (.done a (a.posted result)))
    | _, _ => none
  | .refresh r p =>
    match s.posts p, s.posts r with
    | some (.done a (.calls _ _ _ _)), none =>
      s.begins r a.session (.refresh r a.session.idToken a.session.notAfter)
    | _, _ => none
  | .read r now => (s.asks.step (.read r now)).map fun asks => { s with asks }
  | .answer r f at_ => (s.asks.step (.answer r f at_)).map fun asks => { s with asks }

/-- The gateway, with the sessions in the file and the directories of its network string. -/
def start (tokens : SortedMap String OAuth.Session) (now : Int64) (known : List NodeId) :
    WebGateway root β ι ρ :=
  ⟨.start (.opened tokens now), .start known, fun _ => none, fun _ => none, fun _ => none⟩

end WebGateway

end

end Wires
