import Wires.Impl.McpHttp
import Wires.Proof.Mcp
import Wires.Proof.Redeem
import Wires.Proof.Release

/-!
# What a request to `/mcp` comes to

`checkHeaders_eq_ok` and `accept_eq_ok` say which requests pass the checks. The
core checks a request's version again: it never finds fault with one that passed
(`supported_versionFor`), so a reply's status is told by the JSON-RPC error it
carries (`status_posted`), and a call is made only for `tools/call`, of a service
of the user's view, under the name the headers give (`posted_calls`).
-/

namespace Wires

namespace McpHttp

/-! ## Headers -/

variable {headers : Headers} {msg : Json}

/-- A modern request's headers say what its body does, in a version that is supported. -/
structure Mirrors (headers : Headers) (msg : Json) : Prop where
  version : ∃ v ∈ SUPPORTED_PROTOCOL_VERSIONS,
    headers.header "mcp-protocol-version" = some v ∧ bodyVersion msg = some v
  method : headers.header "mcp-method" = some (methodOf msg)
  name : ∀ field, nameField (methodOf msg) = some field → ∃ v, headers.header "mcp-name" = some v ∧
    decodeHeaderValue v = some (paramText msg field)

theorem checkVersion_eq_ok {header body : Option String} {u : Unit} :
    checkVersion header body = .ok u ↔ ∃ v, header = some v ∧ body = some v := by
  cases header with
  | none => simp [checkVersion]
  | some h => simp [checkVersion]

theorem checkMethod_eq_ok {header : Option String} {method : String} {u : Unit} :
    checkMethod header method = .ok u ↔ header = some method := by
  cases header with
  | none => simp [checkMethod]
  | some m => simp [checkMethod]

theorem checkName_eq_ok {header : Option String} {body : String} :
    checkName header body = .ok () ↔ ∃ v, header = some v ∧ decodeHeaderValue v = some body := by
  cases header with
  | none => simp [checkName]
  | some v => cases hv : decodeHeaderValue v <;> simp [checkName, hv]

/-- The era of a request whose headers are right. -/
theorem checkHeaders_eq_ok {era : Era} : checkHeaders headers msg = .ok era ↔
    (modern headers msg = true ∧ era = .modern ∧ Mirrors headers msg) ∨
    (modern headers msg = false ∧ methodOf msg = "initialize" ∧ era = .legacy none) ∨
    (modern headers msg = false ∧ methodOf msg ≠ "initialize" ∧ ∃ v ∈ SUPPORTED_PROTOCOL_VERSIONS,
      v = (headers.header "mcp-protocol-version").getD HEADERLESS_VERSION ∧
      era = .legacy (some v)) := by
  unfold checkHeaders
  by_cases hm : modern headers msg = true
  · rw [if_pos hm]
    simp only [hm, true_and, bind_eq_ok, checkVersion_eq_ok, ensure_eq_ok,
      checkMethod_eq_ok, forEach_eq_ok, Option.mem_toList, checkName_eq_ok, pure_eq_ok,
      Bool.true_eq_false, false_and, or_false, exists_const]
    constructor
    · rintro ⟨⟨v, hheader, hbody⟩, hsupported, hmethod, hname, rfl⟩
      rw [hbody] at hsupported
      exact ⟨rfl, ⟨v, hsupported, hheader, hbody⟩, hmethod, hname⟩
    · rintro ⟨rfl, ⟨v, hsupported, hheader, hbody⟩, hmethod, hname⟩
      exact ⟨⟨v, hheader, hbody⟩, by rwa [hbody], hmethod, hname, rfl⟩
  · rw [if_neg hm]
    have hm' : modern headers msg = false := Bool.not_eq_true _ ▸ hm
    by_cases hi : methodOf msg = "initialize"
    · simp [hm', hi, eq_comm]
    · rw [if_neg hi]
      simp only [hm', bind_eq_ok, ensure_eq_ok, exists_const, pure_eq_ok, true_and, hi,
        false_and, false_or, Bool.false_eq_true, ne_eq, not_false_eq_true]
      constructor
      · rintro ⟨hsupported, rfl⟩
        exact ⟨_, hsupported, rfl, rfl⟩
      · rintro ⟨v, hsupported, rfl, rfl⟩
        exact ⟨hsupported, rfl⟩

/-! ## Requests -/

section

variable [Web] [Origin] [Jose] {gw : OAuth.Gateway} {origins : List String} {store : OAuth.Store}
  {body : List UInt8} {now : Int64} {a : Accepted}

/-- A request presents the token of a session that is live, for this gateway. -/
def Presents (gw : OAuth.Gateway) (store : OAuth.Store) (headers : Headers) (now : Int64)
    (session : OAuth.Session) : Prop :=
  ∃ token, bearer headers = some token ∧ store.session token now = some session ∧
    session.resource = gw.urls.resource

/-- The body is one JSON object, as `serde_json` reads it. -/
def Holds (body : List UInt8) (msg : Json) : Prop :=
  ((utf8Decode body).bind Json.parse).filter (Json.isValue MAX_NESTING) = some msg ∧ msg.isObject = true

/-- Which requests the user's view is asked for. -/
theorem accept_eq_ok : accept gw origins store headers body now = .ok a ↔
    originOk origins headers = true ∧ Presents gw store headers now a.session ∧ Holds body a.msg ∧
      checkHeaders headers a.msg = .ok a.era ∧ a.msg.get "id" = some a.id := by
  obtain ⟨session, msg, id, era⟩ := a
  unfold accept
  simp only [Holds, bind_eq_ok, ensure_eq_ok, orError_eq_ok, mapErr_eq_ok, pure_eq_ok, exists_const,
    Option.filter_eq_some_iff, decide_eq_true_eq, Accepted.mk.injEq]
  constructor
  · rintro ⟨horigin, token, htoken, _, ⟨hsession, hresource⟩, _, hmsg, hobj, _, hera, _, hid, rfl, rfl,
      rfl, rfl⟩
    exact ⟨horigin, ⟨token, htoken, hsession, hresource⟩, ⟨hmsg, hobj⟩, hera, hid⟩
  · rintro ⟨horigin, ⟨token, htoken, hsession, hresource⟩, ⟨hmsg, hobj⟩, hera, hid⟩
    exact ⟨horigin, token, htoken, _, ⟨hsession, hresource⟩, _, hmsg, hobj, _, hera, _, hid, rfl, rfl,
      rfl, rfl⟩

end

/-! ## Replies -/

theorem get_error_errorResponse (id : Json) (e : RpcError) :
    ∃ ms, (errorResponse id e).get "error" = some (.obj ms) ∧
      (Json.obj ms).get "code" = some (.num e.code) := by
  refine ⟨_, rfl, ?_⟩
  cases h : e.data with
  | none => rfl
  | some data => rfl

/-- The code of an error that is sent. -/
theorem errorCode_errorResponse {id : Json} {e : RpcError} (hlo : -2 ^ 63 ≤ e.code)
    (hhi : e.code < 2 ^ 63) : errorCode (errorResponse id e) = some e.code := by
  obtain ⟨ms, herror, hcode⟩ := get_error_errorResponse id e
  rw [errorCode, herror, Option.bind_some, hcode]
  exact if_pos ⟨hlo, hhi⟩

@[simp] theorem status_jsonReply (status : Nat) (body : Json) : (jsonReply status body).status = status :=
  rfl

theorem errorCode_result (id : Json) (version : Option String) (result : Json) :
    errorCode (McpServer.reply id version (.ok result)) = none := rfl

section

variable [Web] [Jaq] {s : McpServer}

/-- A call is refused for its parameters alone. -/
theorem errors_toolsCall (params : Json) :
    Errors (fun e : RpcError => e.code = INVALID_PARAMS) (s.toolsCall params) := by
  have hrun : ∀ (tool : ViewService) (arguments : Option Json),
      Errors (fun e : RpcError => e.code = INVALID_PARAMS) (McpServer.runTool tool arguments) := by
    intro tool arguments e he
    rcases bind_eq_error.mp he with h | ⟨a, -, h⟩
    · obtain ⟨why, -, rfl⟩ := mapErr_eq_error.mp h
      rfl
    · cases h
  unfold McpServer.toolsCall
  refine .bind (.orError rfl) fun name => ?_
  dsimp only
  split
  · exact hrun _ _
  · split_ifs
    · refine .bind ?_ fun _ => .ok _
      exact .bind (.orError rfl) fun _ => .ok _
    · refine .bind ?_ fun p => .bind (.orError rfl) fun tool => hrun _ _
      unfold takeService
      split
      · exact .bind (.orError rfl) fun _ => .ok _
      · exact .error rfl
    · exact .error rfl

omit [Web] [Jaq] in
/-- The version the core reads is the body's, or the one that was agreed. -/
theorem versionFor_params (msg : Json) : s.versionFor ((msg.get "params").getD .null) =
    (bodyVersion msg <|> s.negotiated) := by
  unfold McpServer.versionFor bodyVersion
  cases msg.get "params" with
  | none => rfl
  | some p => cases hmeta : p.get "_meta" <;> simp [hmeta]

variable {headers : Headers} {a : Accepted}

omit [Web] [Jaq] in
/-- A request that passed the header check is in a version the core supports. -/
theorem supported_versionFor [Crypto] {root : NodeId} (held : HeldView root)
    (hera : checkHeaders headers a.msg = .ok a.era) {v : String}
    (hv : (a.server held).versionFor ((a.msg.get "params").getD .null) = some v) :
    v ∈ SUPPORTED_PROTOCOL_VERSIONS := by
  rw [versionFor_params] at hv
  have hlegacy : modern headers a.msg = false → bodyVersion a.msg = none := by
    intro hm
    rw [modern, Bool.or_eq_false_iff] at hm
    exact Option.not_isSome_iff_eq_none.mp (by simp [hm.1])
  rcases checkHeaders_eq_ok.mp hera with ⟨-, -, ⟨w, hw, -, hbody⟩, -, -⟩ | ⟨hm, -, he⟩ |
    ⟨hm, -, w, hw, -, he⟩
  · rw [hbody] at hv
    cases hv
    exact hw
  · have hnone : (a.server held).negotiated = none := congrArg Era.negotiated he
    rw [hlegacy hm, hnone] at hv
    cases hv
  · have hsome : (a.server held).negotiated = some w := congrArg Era.negotiated he
    rw [hlegacy hm, hsome] at hv
    cases hv
    exact hw

/-- What the core answers a request that passed the header check: it never finds fault with the
version again. -/
theorem handle_accepted [Crypto] {root : NodeId} (held : HeldView root)
    (hera : checkHeaders headers a.msg = .ok a.era) (hobj : a.msg.isObject = true)
    (hid : a.msg.get "id" = some a.id) :
    (∃ version call, ((a.server held).handle a.msg).2 = .calls a.id version call ∧
      methodOf a.msg = "tools/call") ∨
    (∃ version result, ((a.server held).handle a.msg).2 =
      .replies (McpServer.reply a.id version (.ok result))) ∨
    ∃ e : RpcError, ((a.server held).handle a.msg).2 = .replies (errorResponse a.id e) ∧
      (e.code = INVALID_PARAMS ∨ e.code = METHOD_NOT_FOUND ∨
        (e.code = INVALID_REQUEST ∧ (a.msg.get "method").bind Json.asStr = none)) := by
  obtain ⟨ms, hms⟩ : ∃ ms, a.msg = .obj ms := by
    cases h : a.msg with
    | obj ms => exact ⟨ms, rfl⟩
    | _ => rw [h] at hobj; cases hobj
  have hversion : ((a.server held).versionFor ((a.msg.get "params").getD .null)).filter
      (fun v => decide (v ∉ SUPPORTED_PROTOCOL_VERSIONS ∧ methodOf a.msg ≠ "initialize")) = none := by
    rw [Option.filter_eq_none_iff]
    intro v hv
    simp [supported_versionFor held hera hv]
  have hhandle : ∀ s : McpServer, s.handle a.msg = s.handle (.obj ms) := by rw [hms]; exact fun _ => rfl
  rw [hhandle]
  unfold McpServer.handle
  dsimp only
  rw [← hms, hid]
  dsimp only
  cases hmethod : (a.msg.get "method").bind Json.asStr with
  | none => exact .inr (.inr ⟨_, rfl, .inr (.inr ⟨rfl, rfl⟩)⟩)
  | some method =>
    have hof : methodOf a.msg = method := by rw [methodOf, hmethod]; rfl
    dsimp only
    rw [hof] at hversion
    rw [hversion]
    dsimp only
    split_ifs with hdiscover hinit hping hlist hcall
    · exact .inr (.inl ⟨_, _, rfl⟩)
    · exact .inr (.inl ⟨_, _, rfl⟩)
    · exact .inr (.inl ⟨_, _, rfl⟩)
    · exact .inr (.inl ⟨_, _, rfl⟩)
    · cases hc : (a.server held).toolsCall ((a.msg.get "params").getD .null) with
      | error e => exact .inr (.inr ⟨e, rfl, .inl (errors_toolsCall _ e hc)⟩)
      | ok call =>
        cases call with
        | answers result => exact .inr (.inl ⟨_, result, rfl⟩)
        | calls call => exact .inl ⟨_, call, rfl, hof.trans hcall⟩
    · exact .inr (.inr ⟨_, rfl, .inr (.inl rfl)⟩)

/-- **The status of a reply.** A request that passed the checks is answered with a result, in a
`200`; or with an error for its parameters in a `200`, for its method in a `404` (a `200` in the
legacy era), or for having none in a `400`: never for its version or its headers. -/
theorem status_posted [Crypto] [Origin] [Jose] {root : NodeId} {gw : OAuth.Gateway} {origins : List String}
    {store : OAuth.Store} {body : List UInt8} {now : Int64} {held : HeldView root} {reply : HttpReply}
    (haccept : accept gw origins store headers body now = .ok a)
    (h : a.posted (.ok held) = .replies reply) : ∃ json, reply = jsonReply reply.status json ∧
      ((errorCode json = none ∧ reply.status = 200) ∨
      (errorCode json = some INVALID_PARAMS ∧ reply.status = 200) ∨
      (errorCode json = some METHOD_NOT_FOUND ∧
        reply.status = if a.era = .modern then 404 else 200) ∨
      (errorCode json = some INVALID_REQUEST ∧ reply.status = 400 ∧
        (a.msg.get "method").bind Json.asStr = none)) := by
  obtain ⟨-, -, ⟨-, hobj⟩, hera, hid⟩ := accept_eq_ok.mp haccept
  have hreply : ∀ json, ((a.server held).handle a.msg).2 = .replies json →
      reply = jsonReply (statusFor json (a.era = .modern)) json := by
    intro json hjson
    simp only [Accepted.posted, hjson, Posted.replies.injEq] at h
    exact h.symm
  rcases handle_accepted held hera hobj hid with ⟨version, call, hcall, -⟩ | ⟨version, result, hresult⟩ |
    ⟨e, herror, hcode⟩
  · simp only [Accepted.posted, hcall] at h
    cases h
  · have hr := hreply _ hresult
    have hnone := errorCode_result a.id version result
    have hstatus : reply.status = 200 := by
      rw [hr, status_jsonReply, statusFor, hnone]
    refine ⟨_, ?_, .inl ⟨hnone, hstatus⟩⟩
    rw [hstatus, hr, statusFor, hnone]
  · have hr := hreply _ herror
    have hsome : errorCode (errorResponse a.id e) = some e.code := by
      apply errorCode_errorResponse <;> rcases hcode with hc | hc | ⟨hc, -⟩ <;> rw [hc] <;> decide
    have hstatus : reply.status = statusFor (errorResponse a.id e) (a.era = .modern) := by
      rw [hr, status_jsonReply]
    refine ⟨errorResponse a.id e, by rw [hstatus]; exact hr, ?_⟩
    rw [hsome, hstatus, statusFor, hsome]
    rcases hcode with hc | hc | ⟨hc, hnone⟩
    · exact .inr (.inl ⟨by rw [hc], by rw [hc]; rfl⟩)
    · refine .inr (.inr (.inl ⟨by rw [hc], ?_⟩))
      rw [hc]
      by_cases hm : a.era = .modern <;> simp [hm, METHOD_NOT_FOUND, HEADER_MISMATCH,
        UNSUPPORTED_PROTOCOL_VERSION, PARSE_ERROR, INVALID_REQUEST]
    · exact .inr (.inr (.inr ⟨by rw [hc], by rw [hc]; rfl, hnone⟩))

/-- A call is made for `tools/call` alone, of a service of the view: the one that is named, or the
one that `call_service` is given. -/
theorem posted_calls [Crypto] {root : NodeId} {held : HeldView root} {id : Json}
    {version : Option String} {call : OutgoingCall} {result : Except Anyhow (HeldView root)}
    (h : a.posted result = .calls held id version call) :
    result = .ok held ∧ (∃ e ∈ held.view.entries, e.name = call.service) ∧
      McpServer.Asks ((a.msg.get "params").getD .null) call := by
  cases result with
  | error e =>
    simp only [Accepted.posted] at h
    split_ifs at h
  | ok held =>
    simp only [Accepted.posted] at h
    split at h
    · cases h
    · cases h
    · rename_i id' version' call' hcalls
      cases h
      obtain ⟨⟨t, ht, hname⟩, hasks⟩ := McpServer.calls_of_toolsCall (McpServer.calls_of_handle hcalls)
      obtain ⟨e, he, rfl⟩ := List.mem_map.mp ht
      exact ⟨rfl, ⟨e, he, hname⟩, hasks⟩

end

/-! ## Two requests -/

section Sample

attribute [local instance] Crypto.plain Jose.plain OAuth.clientWeb OAuth.clientOrigin OAuth.clientParts
  OAuth.plainHmac McpServer.jaqPlain

/-- The session of a token that is in the file. -/
def webSession : OAuth.Session :=
  ⟨trustPrincipal, "id-token", "cli", OAuth.sampleGateway.urls.resource⟩

def webTokens : SortedMap String OAuth.Session :=
  SortedMap.insert ∅ (OAuth.tokenHash "token") webSession

/-- The headers of a modern request with that token. -/
def webHeaders (method : String) : Headers :=
  [("authorization", utf8 "Bearer token".toList),
    ("mcp-protocol-version", utf8 LATEST_PROTOCOL_VERSION.toList),
    ("mcp-method", utf8 method.toList), ("mcp-name", utf8 sampleName.name.toList)]

theorem presents_sample (method : String) : Presents OAuth.sampleGateway
    (OAuth.Store.opened webTokens 0) (webHeaders method) 5 webSession := by
  have hbearer : bearer (webHeaders method) = some "token" := by
    have hheader : (webHeaders method).header "authorization" = some "Bearer token" := rfl
    rw [bearer, hheader]
    decide
  refine ⟨"token", hbearer, ?_, rfl⟩
  rw [OAuth.Store.session, OAuth.Store.opened, SortedMap.get?_retain, webTokens,
    SortedMap.get?_insert, if_pos rfl]
  rfl

theorem accept_sample {method : String} {msg : Json} (hm : Mirrors (webHeaders method) msg)
    (hvalue : Json.isValue MAX_NESTING msg = true) (hobj : msg.isObject = true)
    (hid : msg.get "id" = some (.num 1)) :
    accept OAuth.sampleGateway [] (OAuth.Store.opened webTokens 0) (webHeaders method)
      (utf8 msg.compact) 5 = .ok ⟨webSession, msg, .num 1, .modern⟩ := by
  have hmodern : modern (webHeaders method) msg = true := by
    obtain ⟨v, -, -, hbody⟩ := hm.version
    rw [modern, hbody]
    rfl
  have hparse : ((utf8Decode (utf8 msg.compact)).bind Json.parse).filter (Json.isValue MAX_NESTING) =
      some msg := by
    rw [utf8Decode_utf8, Option.bind_some, Json.parse_compact]
    exact Option.filter_eq_some_iff.mpr ⟨rfl, hvalue⟩
  exact accept_eq_ok.mpr ⟨rfl, presents_sample method, ⟨hparse, hobj⟩,
    checkHeaders_eq_ok.mpr (.inl ⟨hmodern, rfl, hm⟩), hid⟩

/-- A request whose method is of no use. -/
def nopeMessage : Json :=
  .obj [("id", .num 1), ("method", .text "nope"),
    ("params", .obj [("_meta", .obj [(META_PROTOCOL_VERSION, .text LATEST_PROTOCOL_VERSION)])])]

theorem mirrors_nopeMessage : Mirrors (webHeaders "nope") nopeMessage where
  version := ⟨LATEST_PROTOCOL_VERSION, by decide, by decide, by decide⟩
  method := by decide
  name := by
    have hmethod : methodOf nopeMessage = "nope" := by decide
    intro field hfield
    rw [hmethod] at hfield
    cases hfield

/-- It is answered with a `404`. -/
theorem status_posted_sample : ∃ (held : HeldView (nodeId sampleRoot)) (json : Json),
    (Accepted.mk webSession nopeMessage (.num 1) .modern).posted (.ok held) =
      .replies (jsonReply 404 json) ∧ errorCode json = some METHOD_NOT_FOUND := by
  have haccept := accept_sample mirrors_nopeMessage (by decide) (by decide) rfl
  have hposted : ∃ json, (Accepted.mk webSession nopeMessage (.num 1) .modern).posted
      (.ok (sampleHeld FreshSet.empty)) = .replies (jsonReply 404 json) := ⟨_, rfl⟩
  obtain ⟨json, hjson⟩ := hposted
  obtain ⟨json', hreply, hcodes⟩ := status_posted haccept hjson
  refine ⟨_, json', hjson.trans (congrArg Posted.replies hreply), ?_⟩
  rcases hcodes with ⟨-, hstatus⟩ | ⟨-, hstatus⟩ | ⟨hcode, -⟩ | ⟨-, hstatus, -⟩
  · cases hstatus
  · cases hstatus
  · exact hcode
  · cases hstatus

end Sample

end McpHttp

end Wires
