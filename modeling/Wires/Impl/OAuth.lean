import Wires.Framework.Base64
import Wires.Framework.Capped
import Wires.Impl.Jwks
import Wires.Impl.Mcp
import Wires.Impl.Views

/-!
# The gateway's authorization server

`wires/gateway/oauth.rs` and its `Store` (`wires/gateway/sessions.rs`), with
`exchange_code` of `wires/caller/login.rs` from the IdP's reply on, and
`Client::allows_redirect`. `OAuth.step` is one step of one request: a handler runs
up to its next wait, and any others may run meanwhile. What is waited for (the
client's registration, the IdP, a directory) comes with the event that ends the
wait, as do the random draws and the clock. A browser keeps the cookies it was
set, and a request carries only such. What has been done, in order, is kept beside.
-/

namespace Wires

/-- SHA-256, and what else is asked of a `Url` (two are equal when their texts are). -/
class Origin [Web] where
  sha256 : List UInt8 → Bytes 32
  hostStr : Web.Url → Option String
  path : Web.Url → String
  query : Web.Url → Option String
  fragment : Web.Url → Option String
  /-- `origin().ascii_serialization()`. -/
  origin : Web.Url → String
  /-- `query_pairs_mut().extend_pairs`. -/
  extendPairs : Web.Url → List (String × String) → Web.Url

/-- An OAuth client registered with one issuer. -/
structure OidcClient where
  issuer : Issuer
  clientId : String
  clientSecret : Option String

/-- `OidcClient::audience`. -/
def OidcClient.audience (client : OidcClient) : Audience := client.clientId

/-- A completed login. -/
structure Login where
  claim : IdentityClaim
  principal : Principal
  refreshToken : Option String

/-- The token endpoint's reply, as far as it is read once it is a success. -/
structure TokenReply where
  idToken : Option String
  refreshToken : Option String

section

variable [Web]

/-- `Display`. -/
def VerifyError.display : VerifyError → String
  | .untrusted issuer => "issuer " ++ Web.quoted issuer ++
    " is not trusted here (the signed policy trusts an IdP after `wires issuer set`; host.json's " ++
    "identity.issuers can only narrow that)"
  | .unavailable e => "issuer keys unavailable: " ++ e
  | .rejected e => e
  | .expired p => "expired at " ++ toString p.notAfter

/-- `finish` of a sign-in: the reply's ID token, verified as a claim for `node`. -/
def Login.finish [Jose] (client : OidcClient) (node : NodeId) (reply : TokenReply) (now : Int64)
    (keys : Issuer → Option String → Except Anyhow Jwks) : Except Anyhow Login := do
  let idToken ← orError reply.idToken
    ["the IdP's reply has no id_token (is `openid` in the scope?)"]
  let claim : IdentityClaim := ⟨node, idToken⟩
  let principal ← mapErr (fun e => ["the IdP's ID token does not verify as a claim for this node: " ++
    VerifyError.display e]) do
      let (issuer, kid) ← opened claim [client.issuer]
      judged claim issuer [client.audience] now (keys issuer kid)
  return ⟨claim, principal, reply.refreshToken⟩

end

namespace OAuth

/-! ## The store -/

/-- How long an authorization may sit between `/authorize` and the IdP's redirect back. -/
def PENDING_TTL_SECS : Int64 := 600

/-- How long an authorization code is redeemable. -/
def CODE_TTL_SECS : Int64 := 60

/-- Most authorizations in flight at once. -/
def MAX_PENDING : Nat := 1024

/-- Most unredeemed codes at once. -/
def MAX_CODES : Nat := 1024

/-- Who a token speaks for, and the proof the hosts will check. -/
structure Session where
  principal : Principal
  idToken : IdToken
  clientId : String
  resource : String

/-- `Session::not_after`. -/
def Session.notAfter (s : Session) : Int64 := s.principal.notAfter

variable [Web]

/-- An authorization in flight. -/
structure Authorization where
  clientId : String
  clientName : String
  redirectUri : Web.Url
  state : Option String
  codeChallenge : String
  resource : String
  upstreamVerifier : String
  loginHint : Option String
  created : Int64

/-- An issued, unredeemed authorization code. -/
structure CodeGrant where
  clientId : String
  redirectUri : Web.Url
  codeChallenge : String
  session : Session
  expires : Int64

/-- The gateway's OAuth state; sessions are by the hashes of their access tokens. -/
structure Store where
  pending : SortedMap String Authorization
  codes : SortedMap String CodeGrant
  tokens : SortedMap String Session

namespace Store

/-- `Store::open`, of the sessions in the file. -/
def opened (tokens : SortedMap String Session) (now : Int64) : Store :=
  ⟨∅, ∅, tokens.retain fun s => s.notAfter > now⟩

/-- `Store::begin`, with the id drawn. -/
def begin (s : Store) (a : Authorization) (id : String) (victims : List String) : Option Store :=
  (s.pending.enter (fun p => p.created + PENDING_TTL_SECS > a.created) (fun p => p.created.toInt)
    MAX_PENDING victims id a).map fun pending => { s with pending }

/-- `Store::pending`. -/
def pending? (s : Store) (id : String) (now : Int64) : Option Authorization :=
  (s.pending.get? id).filter fun p => p.created + PENDING_TTL_SECS > now

/-- `Store::finish`. -/
def finish (s : Store) (id : String) (now : Int64) : Store × Option Authorization :=
  ({ s with pending := s.pending.erase id }, s.pending? id now)

/-- `Store::issue_code`, with the code drawn. -/
def issueCode (s : Store) (grant : CodeGrant) (code : String) (victims : List String) :
    Option Store :=
  (s.codes.enter (fun c => c.expires > grant.expires - CODE_TTL_SECS) (fun c => c.expires.toInt)
    MAX_CODES victims code grant).map fun codes => { s with codes }

/-- `Store::redeem_code`. -/
def redeemCode (s : Store) (code : String) (now : Int64) : Store × Option CodeGrant :=
  ({ s with codes := s.codes.erase code }, (s.codes.get? code).filter fun c => c.expires > now)

end Store

/-! ## Requests and replies -/

/-- A client the gateway will run an authorization for. -/
structure Client where
  id : String
  name : String
  redirectUris : List Web.Url

/-- The gateway's public URLs. -/
structure PublicUrls where
  issuer : String
  /-- `PublicUrls::upstream_callback`. -/
  upstreamCallback : Web.Url
  parsed : Web.parse (issuer ++ "/oauth/callback") = .ok upstreamCallback

/-- `PublicUrls::resource`. -/
def PublicUrls.resource (urls : PublicUrls) : String := urls.issuer ++ "/mcp"

/-- The gateway: where it is reached, its client at the IdP, and its node. -/
structure Gateway where
  urls : PublicUrls
  upstream : OidcClient
  node : NodeId

/-- The cookie binding a consent page to the browser that loaded it. -/
def CONSENT_COOKIE : String := "__Host-wires_authz"

/-- The cookie binding the IdP's redirect back to the browser that consented. -/
def CALLBACK_COOKIE : String := "__Host-wires_cb"

/-- A `Set-Cookie`, at `Path=/` and `HttpOnly`. -/
structure SetCookie where
  name : String
  value : String
  sameSite : String
  maxAge : Int64
  secure : Bool

/-- What a handler answers. -/
inductive Reply where
  | page (status : Nat) (text : String)
  | consent (name : String) (host : Option String) (returnsTo id : String) (cookie : SetCookie)
  | redirect (url : Web.Url) (cookie : Option SetCookie)
  | oauthError (status : Nat) (error description : String)
  | token (accessToken : String) (expiresIn : Int64)

def Reply.setCookie : Reply → Option SetCookie
  | .consent _ _ _ _ cookie => some cookie
  | .redirect _ cookie => cookie
  | _ => none

/-- The parameters of a query, or the fields of a form. -/
abbrev Form := SortedMap String String

/-- The cookies of the request's `Cookie` headers. -/
def cookies (headers : List String) : List (String × String) :=
  headers.flatMap fun v => (v.toList.splitOn ';').filterMap fun kv =>
    (splitOnce '=' (trim kv)).map fun p => (String.ofList p.1, String.ofList p.2)

/-- `cookie`. -/
def cookie (headers : List String) (name : String) : Option String :=
  ((cookies headers).find? fun p => p.1 = name).map Prod.snd

variable [Origin]

/-- `token_hash`. -/
def tokenHash (token : String) : String :=
  String.ofList (Base64.encode (Origin.sha256 (utf8 token.toList)).toList)

namespace Store

/-- `Store::issue_token`, with the token drawn. -/
def issueToken (s : Store) (session : Session) (now : Int64) (token : String) : Store :=
  { s with tokens := (s.tokens.retain fun s => s.notAfter > now).insert (tokenHash token) session }

/-- `Store::session`. -/
def session (s : Store) (token : String) (now : Int64) : Option Session :=
  (s.tokens.get? (tokenHash token)).filter fun s => s.notAfter > now

end Store

/-- `Client::allows_redirect`. -/
def Client.allowsRedirect (client : Client) (uri : Web.Url) : Bool :=
  client.redirectUris.any fun r =>
    Web.display r = Web.display uri ||
    (Web.scheme r = "http" && Web.isLoopback r && Web.scheme r = Web.scheme uri &&
      Origin.hostStr r = Origin.hostStr uri && Origin.path r = Origin.path uri &&
      Origin.query r = Origin.query uri)

/-- `callback_binding`. -/
def callbackBinding (id : String) : String :=
  String.ofList (Base64.encode
    (Origin.sha256 (utf8 ("wires gateway callback v1:" ++ id).toList)).toList)

/-- `secure_attr`. -/
def secureAttr (urls : PublicUrls) : Bool := "https://".toList.isPrefixOf urls.issuer.toList

/-- `resource_matches`. -/
def resourceMatches (urls : PublicUrls) (given : String) : Bool :=
  match Web.parse given with
  | .error _ => false
  | .ok u =>
    let path := (Origin.path u).toList.rdropWhile (· = '/')
    Origin.origin u = urls.issuer && (path = [] || path = "/mcp".toList) &&
      Origin.query u = none && Origin.fragment u = none

/-- `Pkce::from_verifier`, its challenge. -/
def challengeOf (verifier : String) : String :=
  String.ofList (Base64.encode (Origin.sha256 (utf8 verifier.toList)).toList)

/-- `pkce_ok`. -/
def pkceOk (verifier challenge : String) : Bool :=
  43 ≤ byteLen verifier && byteLen verifier ≤ 128 &&
  verifier.toList.all (fun c => isAsciiAlphanumeric c || "-._~".toList.contains c) &&
  challengeOf verifier = challenge

/-- `to_client`. -/
def toClient (urls : PublicUrls) (uri : Web.Url) (state : Option String)
    (params : List (String × String)) : Reply :=
  .redirect (Origin.extendPairs uri
    (params ++ (state.map fun s => ("state", s)).toList ++ [("iss", urls.issuer)])) none

/-- An error for the client. -/
def back (urls : PublicUrls) (uri : Web.Url) (state : Option String) (error description : String) :
    Reply :=
  toClient urls uri state [("error", error), ("error_description", description)]

/-! ## `/authorize` -/

/-- `is_metadata_url`. -/
def isMetadataUrl (clientId : String) : Bool := "https://".toList.isPrefixOf clientId.toList

/-- `consent`. -/
def consent (urls : PublicUrls) (client : Client) (redirect : Web.Url) (id : String) : Reply :=
  .consent client.name
    (if isMetadataUrl client.id then (Web.parse client.id).toOption.bind Origin.hostStr else none)
    ((Origin.hostStr redirect).getD "") id
    ⟨CONSENT_COOKIE, id, "Strict", PENDING_TTL_SECS, secureAttr urls⟩

/-- `authorize`, up to `Store::begin`: what is asked for, or the error. -/
def authorization (gw : Gateway) (q : Form) (client : Except String Client)
    (verifier : Except Anyhow String) (now : Int64) : Except Reply (Client × Authorization) := do
  let _ ← orError (q.get? "client_id") (.page 400 "The request names no client_id.")
  let client ← mapErr (fun e => .page 400 ("Unknown client: " ++ e ++ ".")) client
  let redirectUri ← orError
    (((q.get? "redirect_uri").bind fun r => (Web.parse r).toOption).filter client.allowsRedirect)
    (.page 400 "The redirect_uri is missing or not registered for this client.")
  let state := q.get? "state"
  let back := back gw.urls redirectUri state
  ensure (q.get? "response_type" = some "code")
    (back "unsupported_response_type" "only response_type=code is supported")
  let challenge ← orError ((q.get? "code_challenge").filter fun c => byteLen c = 43)
    (back "invalid_request" "a PKCE code_challenge (S256) is required")
  ensure (q.get? "code_challenge_method" = some "S256")
    (back "invalid_request" "code_challenge_method must be S256")
  forEach (fun r => ensure (resourceMatches gw.urls r)
    (back "invalid_target" "this server issues tokens only for its own /mcp"))
    (q.get? "resource").toList
  let verifier ← mapErr (fun _ => back "server_error" "no randomness") verifier
  return (client, {
    clientId := client.id
    clientName := client.name
    redirectUri
    state
    codeChallenge := challenge
    resource := gw.urls.resource
    upstreamVerifier := verifier
    loginHint := (q.get? "login_hint").map fun h => String.ofList (h.toList.take 256)
    created := now })

/-! ## `/authorize/confirm` -/

def notThisBrowser : Reply :=
  .page 403 "This sign-in did not start in this browser. Start again from your MCP client."

/-- `confirm`, up to the IdP's discovery. -/
def confirmable (s : Store) (headers : List String) (f : Form) (now : Int64) :
    Except Reply (String × Authorization) := do
  let id := (f.get? "id").getD ""
  ensure (¬(id = "" ∨ cookie headers CONSENT_COOKIE ≠ some id)) notThisBrowser
  let a ← orError (s.pending? id now)
    (.page 400 "This sign-in has expired. Start again from your MCP client.")
  return (id, a)

/-- What `authorization_url` asks of the IdP. -/
def upstreamPairs [Jose] (gw : Gateway) (id : String) (a : Authorization) : List (String × String) :=
  [("response_type", "code"), ("client_id", gw.upstream.clientId),
    ("redirect_uri", Web.display gw.urls.upstreamCallback), ("scope", "openid email"),
    ("state", id), ("nonce", OidcNonce.forNode gw.node),
    ("code_challenge", challengeOf a.upstreamVerifier), ("code_challenge_method", "S256"),
    ("prompt", "select_account")] ++ (a.loginHint.map fun h => ("login_hint", h)).toList

/-- `confirm`, once the IdP is discovered, or not. -/
def upstream [Jose] (gw : Gateway) (id : String) (a : Authorization) : Except Anyhow Discovery → Reply
  | .error _ => .page 502 "The identity provider is unreachable."
  | .ok doc => .redirect (Origin.extendPairs doc.authorizationEndpoint (upstreamPairs gw id a))
    (some ⟨CALLBACK_COOKIE, callbackBinding id, "Lax", PENDING_TTL_SECS, secureAttr gw.urls⟩)

/-! ## `/oauth/callback` -/

/-- `callback`, up to the code's exchange. -/
def returned (gw : Gateway) (s : Store) (headers : List String) (q : Form) (now : Int64) :
    Store × Except Reply (String × Authorization × String) :=
  let state := (q.get? "state").getD ""
  if state = "" ∨ cookie headers CALLBACK_COOKIE ≠ some (callbackBinding state) then
    (s, .error notThisBrowser)
  else
    let (s, a) := s.finish state now
    (s, do
      let a ← orError a (.page 400
        "This sign-in has expired or was already used. Start again from your MCP client.")
      let back := back gw.urls a.redirectUri a.state
      forEach (fun e => .error (back "access_denied" ("the identity provider said: " ++ e)))
        (q.get? "error").toList
      let code ← orError (q.get? "code") (back "access_denied" "the identity provider sent no code")
      return (state, a, code))

/-- The form `exchange_code` posts to the IdP. -/
def exchangeForm (gw : Gateway) (a : Authorization) (code : String) : List (String × String) :=
  [("grant_type", "authorization_code"), ("code", code),
    ("redirect_uri", Web.display gw.urls.upstreamCallback), ("code_verifier", a.upstreamVerifier),
    ("client_id", gw.upstream.clientId)] ++
    (gw.upstream.clientSecret.map fun s => ("client_secret", s)).toList

/-- `callback`, of what the IdP answers to `exchangeForm`. -/
def exchanged [Jose] (gw : Gateway) (a : Authorization) (reply : Except Anyhow TokenReply)
    (now : Int64) (keys : Issuer → Option String → Except Anyhow Jwks) : Except Reply Login :=
  mapErr (fun _ => back gw.urls a.redirectUri a.state "access_denied" "the sign-in did not verify") do
    let reply ← reply
    Login.finish gw.upstream gw.node reply now keys

/-- The session of a sign-in. -/
def sessionOf (a : Authorization) (login : Login) : Session :=
  ⟨login.principal, login.claim.idToken, a.clientId, a.resource⟩

def NOT_ADMITTED_HERE : String :=
  "not admitted to this network: no role in this network matches this account, or it was removed: " ++
  "ask your admin"

/-- `callback`, of the services the user may call. -/
def admitted (gw : Gateway) (a : Authorization) : Except Anyhow (List ViewService) → Except Reply Unit
  | .ok [] => .error (back gw.urls a.redirectUri a.state "access_denied"
    "this account may call no services through this gateway")
  | .ok _ => .ok ()
  | .error e =>
    if Views.isNotAdmitted e then
      .error (back gw.urls a.redirectUri a.state "access_denied" NOT_ADMITTED_HERE)
    else
      .error (back gw.urls a.redirectUri a.state "temporarily_unavailable"
        "the gateway could not get your services from a directory; try again")

/-- The grant of a code. -/
def grantOf (a : Authorization) (session : Session) (now : Int64) : CodeGrant :=
  ⟨a.clientId, a.redirectUri, a.codeChallenge, session, now + CODE_TTL_SECS⟩

/-! ## `/token` -/

/-- `token`'s checks of a grant that was redeemed: how long the token lasts. -/
def redeemable (gw : Gateway) (grant : CodeGrant) (f : Form) (now : Int64) : Except Reply Int64 := do
  ensure (f.get? "client_id" = some grant.clientId)
    (.oauthError 400 "invalid_grant" "the code was issued to another client")
  ensure (f.get? "redirect_uri" = some (Web.display grant.redirectUri))
    (.oauthError 400 "invalid_grant" "redirect_uri does not match the authorization")
  ensure (pkceOk ((f.get? "code_verifier").getD "") grant.codeChallenge)
    (.oauthError 400 "invalid_grant" "the PKCE code_verifier does not match")
  forEach (fun r => ensure (resourceMatches gw.urls r)
    (.oauthError 400 "invalid_target" "this server issues tokens only for its own /mcp"))
    (f.get? "resource").toList
  let expiresIn := grant.session.notAfter - now
  ensure (¬expiresIn ≤ 0) (.oauthError 400 "invalid_grant" "the sign-in behind this code has expired")
  return expiresIn

/-- `token` of a code: the store after it, the reply, and the session of a token that was given out.
`drawn` is the token, and `persisted` whether the file of the sessions could be written. -/
def redeem (gw : Gateway) (s : Store) (code : String) (f : Form) (now : Int64)
    (drawn : Except Anyhow String) (persisted : Bool) : Store × Reply × Option (String × Session) :=
  match s.redeemCode code now with
  | (s, none) => (s, .oauthError 400 "invalid_grant" "the code is unknown, used or expired", none)
  | (s, some grant) =>
    match redeemable gw grant f now with
    | .error r => (s, r, none)
    | .ok expiresIn =>
      match drawn with
      | .error _ => (s, .oauthError 500 "server_error" "could not issue a token", none)
      | .ok t =>
        let s := s.issueToken grant.session now t
        if persisted then (s, .token t expiresIn, some (t, grant.session))
        else (s, .oauthError 500 "server_error" "could not issue a token", none)

end OAuth

/-! ## Any number of them -/

section

variable [Web]

/-- Where a request stands. -/
inductive OAuthStage (β : Type) where
  | confirming (b : β) (id : String) (a : OAuth.Authorization)
  | exchanging (b : β) (id : String) (a : OAuth.Authorization) (form : List (String × String))
    (now : Int64)
  | viewing (b : β) (id : String) (a : OAuth.Authorization) (session : OAuth.Session) (now : Int64)
  | done (reply : OAuth.Reply)

/-- What has been done for an authorization, in the browser `b`. -/
inductive Deed (β : Type) where
  | began (b : β) (id : String) (a : OAuth.Authorization)
  | confirmed (b : β) (id : String)
  | returned (b : β) (id : String) (form : List (String × String))
  | signedIn (b : β) (id : String) (login : Login)
  | coded (b : β) (id code : String)
  | redeemed (code : String) (f : OAuth.Form) (token : Option (String × OAuth.Session))

/-- The store, the requests (identified by `ι`), the cookies the gateway set in each browser, and what
has been done. -/
structure OAuth (β ι : Type) where
  store : OAuth.Store
  requests : ι → Option (OAuthStage β)
  jars : β → List (String × String)
  log : List (Deed β)

inductive OAuthEvent (β ι : Type) where
  | authorize (i : ι) (b : β) (q : OAuth.Form) (client : Except String OAuth.Client)
    (verifier id : Except Anyhow String) (now : Int64) (victims : List String)
  | confirm (i : ι) (b : β) (headers : List String) (f : OAuth.Form) (now : Int64)
  | discovered (i : ι) (doc : Except Anyhow Discovery)
  | callback (i : ι) (b : β) (headers : List String) (q : OAuth.Form) (now : Int64)
  | exchanged (i : ι) (reply : Except Anyhow TokenReply) (now : Int64)
    (keys : Issuer → Option String → Except Anyhow Jwks)
  | viewed (i : ι) (tools : Except Anyhow (List ViewService)) (code : Except Anyhow String)
    (victims : List String)
  | token (i : ι) (f : OAuth.Form) (now : Int64) (drawn : Except Anyhow String) (persisted : Bool)

namespace OAuth

variable {β ι : Type} [Origin] [DecidableEq β] [DecidableEq ι]

def start (store : Store) : OAuth β ι := ⟨store, fun _ => none, fun _ => [], []⟩

/-- The request has come to this. -/
def goes (s : OAuth β ι) (i : ι) (stage : OAuthStage β) : OAuth β ι :=
  { s with requests := Function.update s.requests i (some stage) }

def does (s : OAuth β ι) (d : Deed β) : OAuth β ι := { s with log := s.log ++ [d] }

/-- The request is answered. -/
def answers (s : OAuth β ι) (i : ι) (reply : Reply) : OAuth β ι := s.goes i (.done reply)

/-- The browser that sent the request is answered, and keeps the cookie. -/
def answersIn (s : OAuth β ι) (i : ι) (b : β) (reply : Reply) : OAuth β ι :=
  { s.answers i reply with
    jars := Function.update s.jars b
      (s.jars b ++ (reply.setCookie.map fun c => (c.name, c.value)).toList) }

def step [Jose] (gw : Gateway) (s : OAuth β ι) : OAuthEvent β ι → Option (OAuth β ι)
  | .authorize i b q client verifier id now victims =>
    if (s.requests i).isSome then none
    else match authorization gw q client verifier now with
      | .error reply => some (s.answersIn i b reply)
      | .ok (client, a) =>
        match id with
        | .error _ => some (s.answersIn i b (back gw.urls a.redirectUri a.state "server_error"
          "could not record the authorization"))
        | .ok id => (s.store.begin a id victims).map fun store =>
          ({ s with store }.does (.began b id a)).answersIn i b
            (consent gw.urls client a.redirectUri id)
  | .confirm i b headers f now =>
    if (s.requests i).isSome ∨ ¬∀ c ∈ cookies headers, c ∈ s.jars b then none
    else match confirmable s.store headers f now with
      | .error reply => some (s.answersIn i b reply)
      | .ok (id, a) => some (s.goes i (.confirming b id a))
  | .discovered i doc =>
    match s.requests i with
    | some (.confirming b id a) =>
      match doc with
      | .error e => some (s.answersIn i b (upstream gw id a (.error e)))
      | .ok doc => some ((s.does (.confirmed b id)).answersIn i b (upstream gw id a (.ok doc)))
    | _ => none
  | .callback i b headers q now =>
    if (s.requests i).isSome ∨ ¬∀ c ∈ cookies headers, c ∈ s.jars b then none
    else match returned gw s.store headers q now with
      | (store, .error reply) => some ({ s with store }.answersIn i b reply)
      | (store, .ok (id, a, code)) =>
        some (({ s with store }.does (.returned b id (exchangeForm gw a code))).goes i
          (.exchanging b id a (exchangeForm gw a code) now))
  | .exchanged i reply at_ keys =>
    match s.requests i with
    | some (.exchanging b id a _ now) =>
      match exchanged gw a reply at_ keys with
      | .error reply => some (s.answersIn i b reply)
      | .ok login => some ((s.does (.signedIn b id login)).goes i
        (.viewing b id a (sessionOf a login) now))
    | _ => none
  | .viewed i tools code victims =>
    match s.requests i with
    | some (.viewing b id a session now) =>
      match admitted gw a tools with
      | .error reply => some (s.answersIn i b reply)
      | .ok () =>
        match code with
        | .error _ => some (s.answersIn i b (back gw.urls a.redirectUri a.state "server_error"
          "could not issue a code"))
        | .ok code => (s.store.issueCode (grantOf a session now) code victims).map fun store =>
          ({ s with store }.does (.coded b id code)).answersIn i b
            (toClient gw.urls a.redirectUri a.state [("code", code)])
    | _ => none
  | .token i f now drawn persisted =>
    if (s.requests i).isSome then none
    else if f.get? "grant_type" ≠ some "authorization_code" then
      some (s.answers i (.oauthError 400 "unsupported_grant_type"
        "only authorization_code is supported"))
    else match f.get? "code" with
      | none => some (s.answers i
        (.oauthError 400 "invalid_grant" "the code is unknown, used or expired"))
      | some code =>
        let (store, reply, token) := redeem gw s.store code f now drawn persisted
        some (({ s with store }.does (.redeemed code f token)).answers i reply)

end OAuth

end

end Wires
