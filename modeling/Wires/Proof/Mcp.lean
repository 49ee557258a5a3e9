import Wires.Impl.HeldView
import Wires.Impl.Mcp
import Wires.Proof.Signing
import Wires.Proof.Trust
import Mathlib.Order.Fin.Basic

/-!
# The tools are the view's services

A call the server makes is of a service it lists, with the arguments and stdin
the request gave (`McpServer.calls_of_handle`). Which services a client can
have called with what `tools/list` and the search tool name is
`McpServer.Reaches`: all of them, unless they are too many to be tools of
their own and one of them has the name of a tool that stands for them, or no
search brings one of them among the first it finds (`reaches_iff`).
-/

namespace Wires

/-! ## Members -/

theorem Json.get_filter {ms : List (String × Json)} {k k' : String} (h : k ≠ k') :
    (Json.obj (ms.filter fun m => m.1 ≠ k')).get k = (Json.obj ms).get k := by
  simp only [Json.get]
  rw [← List.filter_reverse]
  induction ms.reverse with
  | nil => rfl
  | cons m ms ih =>
    obtain ⟨a, v⟩ := m
    by_cases ha : a = k'
    · have hak : ¬k = a := fun hka => h (hka.trans ha)
      have hbeq : (k == a) = false := beq_eq_false_iff_ne.mpr hak
      rw [List.filter_cons_of_neg (by simp [ha]), ih, List.lookup_cons, hbeq]
    · rw [List.filter_cons_of_pos (by simp [ha]), List.lookup_cons, List.lookup_cons, ih]

/-- What is among the first `k` that a filter leaves. -/
theorem mem_take_filter_iff {α : Type} {p : α → Bool} {l : List α} {k : Nat} {a : α} :
    a ∈ (l.filter p).take k ↔ ∃ before after, l = before ++ a :: after ∧ p a = true ∧
      (before.filter p).length < k := by
  constructor
  · intro h
    induction l generalizing k with
    | nil => simp at h
    | cons b l ih =>
      by_cases hb : p b = true
      · rw [List.filter_cons_of_pos hb] at h
        cases k with
        | zero => simp at h
        | succ k =>
          rw [List.take_succ_cons, List.mem_cons] at h
          rcases h with rfl | h
          · exact ⟨[], l, rfl, hb, Nat.succ_pos k⟩
          · obtain ⟨before, after, rfl, ha, hk⟩ := ih h
            refine ⟨b :: before, after, rfl, ha, ?_⟩
            rw [List.filter_cons_of_pos hb, List.length_cons]
            omega
      · rw [List.filter_cons_of_neg hb] at h
        obtain ⟨before, after, rfl, ha, hk⟩ := ih h
        refine ⟨b :: before, after, rfl, ha, ?_⟩
        rwa [List.filter_cons_of_neg hb]
  · rintro ⟨before, after, rfl, ha, hk⟩
    rw [List.filter_append, List.filter_cons_of_pos ha, List.take_append]
    apply List.mem_append_right
    obtain ⟨m, hm⟩ : ∃ m, k - (before.filter p).length = m + 1 := ⟨_, (Nat.succ_pred_eq_of_pos
      (Nat.sub_pos_of_lt hk)).symm⟩
    rw [hm, List.take_succ_cons]
    exact List.mem_cons_self

/-! ## Arguments -/

/-- The arguments a request gives. -/
def givenArgs (arguments : Option Json) : List String :=
  ((arguments.bind fun a => a.get "args").bind asStrings).getD []

/-- The stdin a request gives. -/
def givenStdin (arguments : Option Json) : List UInt8 :=
  utf8 (((arguments.bind fun a => a.get "stdin").bind Json.asStr).getD "").toList

theorem optArgument_eq_ok {α : Type} {arguments : Json} {key kind : String} {read : Json → Option α}
    {a : Option α} (hnull : read .null = none) (h : optArgument arguments key kind read = .ok a) :
    a = (arguments.get key).bind read := by
  unfold optArgument at h
  split at h
  · rename_i hkey
    rw [hkey]
    exact (Except.ok.inj h).symm
  · rename_i hkey
    rw [hkey, Option.bind_some, hnull]
    exact (Except.ok.inj h).symm
  · rename_i v hkey
    rw [hkey, Option.bind_some]
    obtain ⟨b, hb, h⟩ := bind_eq_ok.mp h
    rw [orError_eq_ok.mp hb, pure_eq_ok.mp h]

theorem Argv.args_of_new {args : List String} {a : Argv} (h : Argv.new args = .ok a) :
    a.args = args := by
  unfold Argv.new at h
  split_ifs at h
  cases h
  rfl

theorem parseArguments_eq_ok {arguments : Option Json} {argv : Argv} {stdin : List UInt8}
    {args : ShapeArgs} (h : parseArguments arguments = .ok (argv, stdin, args)) :
    argv.args = givenArgs arguments ∧ stdin = givenStdin arguments := by
  unfold parseArguments at h
  split at h
  · cases h
    exact ⟨rfl, rfl⟩
  · cases h
    exact ⟨rfl, rfl⟩
  · rename_i ms
    obtain ⟨-, -, h⟩ := bind_eq_ok.mp h
    obtain ⟨given, hgiven, h⟩ := bind_eq_ok.mp h
    obtain ⟨argv', hargv, h⟩ := bind_eq_ok.mp h
    obtain ⟨text, htext, h⟩ := bind_eq_ok.mp h
    obtain ⟨_, -, h⟩ := bind_eq_ok.mp h
    obtain ⟨_, -, h⟩ := bind_eq_ok.mp h
    obtain ⟨_, -, h⟩ := bind_eq_ok.mp h
    cases pure_eq_ok.mp h
    have hargs : argv.args = given.getD [] := Argv.args_of_new (mapErr_eq_ok.mp hargv)
    refine ⟨?_, ?_⟩
    · rw [hargs, optArgument_eq_ok rfl hgiven]
      rfl
    · rw [optArgument_eq_ok rfl htext]
      rfl
  · cases h

/-! ## Calls -/

namespace McpServer

section

variable [Web] [Jaq] {s : McpServer}

omit [Web] in
theorem runTool_calls {tool : ViewService} {arguments : Option Json} {call : OutgoingCall}
    (h : runTool tool arguments = .ok (.calls call)) : call.service = tool.name ∧
      call.argv.args = givenArgs arguments ∧ call.stdin = givenStdin arguments := by
  obtain ⟨⟨argv, stdin, args⟩, hargs, h⟩ := bind_eq_ok.mp h
  have hgiven := parseArguments_eq_ok (mapErr_eq_ok.mp hargs)
  have h := pure_eq_ok.mp h
  split at h
  · cases h
    exact ⟨rfl, hgiven⟩
  · cases h

omit [Web] [Jaq] in
theorem listed_eq_some {name : String} {t : ViewService} (h : s.listed name = some t) :
    t ∈ s.services ∧ t.name.name = name := by
  have hname := List.find?_some h
  exact ⟨List.mem_of_find?_eq_some h, of_decide_eq_true hname⟩

/-- The tool a request names. -/
def toolOf (params : Json) : Option String := (params.get "name").bind Json.asStr

/-- The service a request's arguments name. -/
def serviceOf (params : Json) : Option String :=
  (params.get "arguments").bind fun a => (a.get "service").bind Json.asStr

/-- The request names the service, and gives the arguments and the stdin, of the call. -/
structure Asks (params : Json) (call : OutgoingCall) : Prop where
  service : toolOf params = some call.service.name ∨
    toolOf params = some CALL_TOOL ∧ serviceOf params = some call.service.name
  args : call.argv.args = givenArgs (params.get "arguments")
  stdin : call.stdin = givenStdin (params.get "arguments")

omit [Web] [Jaq] in
theorem takeService_eq_ok {arguments : Option Json} {service : String} {rest : Json}
    (h : takeService arguments = .ok (service, rest)) :
    (arguments.bind fun a => (a.get "service").bind Json.asStr) = some service ∧
      ∀ k, k ≠ "service" → rest.get k = arguments.bind fun a => a.get k := by
  unfold takeService at h
  split at h
  · rename_i ms
    obtain ⟨name, hname, h⟩ := bind_eq_ok.mp h
    cases pure_eq_ok.mp h
    exact ⟨orError_eq_ok.mp hname, fun k hk => Json.get_filter hk⟩
  · cases h

theorem calls_of_toolsCall {params : Json} {call : OutgoingCall}
    (h : s.toolsCall params = .ok (.calls call)) :
    (∃ t ∈ s.services, t.name = call.service) ∧ Asks params call := by
  obtain ⟨name, hname, h⟩ := bind_eq_ok.mp h
  have hname : toolOf params = some name := orError_eq_ok.mp hname
  split at h
  · rename_i tool hlisted
    obtain ⟨hmem, hn⟩ := listed_eq_some hlisted
    obtain ⟨hservice, hargs, hstdin⟩ := runTool_calls h
    refine ⟨⟨tool, hmem, hservice.symm⟩, .inl ?_, hargs, hstdin⟩
    rw [hname, hservice, hn]
  · split_ifs at h with hsearch hcall
    · obtain ⟨_, -, h⟩ := bind_eq_ok.mp h
      cases pure_eq_ok.mp h
    · obtain ⟨⟨service, rest⟩, hrest, h⟩ := bind_eq_ok.mp h
      obtain ⟨tool, htool, h⟩ := bind_eq_ok.mp h
      obtain ⟨hmem, hn⟩ := listed_eq_some (orError_eq_ok.mp htool)
      obtain ⟨hservice, hargs, hstdin⟩ := runTool_calls h
      obtain ⟨hserviceOf, hget⟩ := takeService_eq_ok hrest
      have hgets : ∀ k, k ≠ "service" →
          ((some rest).bind fun a => a.get k) = (params.get "arguments").bind fun a => a.get k := hget
      refine ⟨⟨tool, hmem, hservice.symm⟩, .inr ⟨hcall.1 ▸ hname, ?_⟩, ?_, ?_⟩
      · rw [hservice, hn]
        exact hserviceOf
      · rw [hargs, givenArgs, hgets "args" (by decide)]
        rfl
      · rw [hstdin, givenStdin, hgets "stdin" (by decide)]
        rfl

/-- Only `tools/call` makes a call. -/
theorem calls_of_handle {msg id : Json} {version : Option String} {call : OutgoingCall}
    (h : (s.handle msg).2 = .calls id version call) :
    s.toolsCall ((msg.get "params").getD .null) = .ok (.calls call) := by
  unfold handle at h
  split at h
  · dsimp only at h
    split at h
    · cases h
    · split at h
      · cases h
      · split at h
        · cases h
        · split_ifs at h
          split at h
          · cases h
          · rename_i hcalls
            cases h
            exact hcalls
          · cases h
  · cases h

/-- A request that names its version. -/
def request (name : String) (arguments : List (String × Json)) : Json :=
  .obj [("jsonrpc", .text "2.0"), ("id", .num 1), ("method", .text "tools/call"),
    ("params", .obj [("_meta", .obj [(META_PROTOCOL_VERSION, .text LATEST_PROTOCOL_VERSION)]),
      ("name", .text name), ("arguments", .obj arguments)])]

omit [Web] [Jaq] in
theorem toolOf_request (name : String) (arguments : List (String × Json)) :
    toolOf (((request name arguments).get "params").getD .null) = some name := by
  show some (String.ofList name.toList) = some name
  rw [String.ofList_toList]

theorem handle_request {name : String} {arguments : List (String × Json)} {call : OutgoingCall}
    (h : s.toolsCall (((request name arguments).get "params").getD .null) = .ok (.calls call)) :
    (s.handle (request name arguments)).2 =
      .calls (.num 1) (some LATEST_PROTOCOL_VERSION) call := by
  have hversion : s.versionFor (((request name arguments).get "params").getD .null) =
      some LATEST_PROTOCOL_VERSION := rfl
  have hmethod : ((request name arguments).get "method").bind Json.asStr = some "tools/call" := rfl
  have hid : (request name arguments).get "id" = some (.num 1) := rfl
  have hsupported : (some LATEST_PROTOCOL_VERSION).filter (fun v =>
      v ∉ SUPPORTED_PROTOCOL_VERSIONS ∧ "tools/call" ≠ "initialize") = none := by decide
  rw [request] at *
  simp only [handle, hid, hmethod, hversion, hsupported, h]
  rfl

/-! ## What a client reaches -/

/-- The tools a `tools/list` reply names. -/
def toolNames (reply : Json) : List String :=
  match reply.get "tools" with
  | some (.arr tools) => tools.filterMap fun t => (t.get "name").bind Json.asStr
  | _ => []

omit [Web] [Jaq] in
theorem toolNames_toolsList (modern : Bool) : toolNames (s.toolsList modern) =
    if s.searching = true then [SEARCH_TOOL, CALL_TOOL] else s.services.map fun t => t.name.name := by
  have htools : ∀ tools, toolNames (.obj (("tools", .arr tools) :: if modern = true then
      [("ttlMs", .num LIST_TTL_MS), ("cacheScope", .text "private")] else [])) =
      tools.filterMap fun t => (t.get "name").bind Json.asStr := by
    intro tools
    cases modern <;> rfl
  rw [toolsList, htools]
  split_ifs with hsearch
  · rfl
  · rw [List.filterMap_map]
    have hname : ∀ t : ViewService, ((Json.obj [("name", .text t.name.name),
        ("description", .text t.describe), ("inputSchema", inputSchema)]).get "name").bind
          Json.asStr = some t.name.name := by
      intro t
      exact congrArg some String.ofList_toList
    rw [← List.filterMap_eq_map]
    exact List.filterMap_congr fun t _ => hname t

/-- A search, by the tool that is listed, names the service. -/
def Finds (s : McpServer) (n : ServiceName) : Prop :=
  ∃ params query, SEARCH_TOOL ∈ toolNames (s.toolsList true) ∧ toolOf params = some SEARCH_TOOL ∧
    s.toolsCall params = .ok (.answers (toolResult (s.searchText query) false)) ∧
    ∃ t ∈ s.shown query, t.name = n

/-- A client has the service called, by a tool that is listed, and by a name, if it gives one, that
a search told it. -/
def Reaches (s : McpServer) (n : ServiceName) : Prop :=
  ∃ msg id version call, (s.handle msg).2 = .calls id version call ∧ call.service = n ∧
    (∃ tool ∈ toolNames (s.toolsList true), toolOf ((msg.get "params").getD .null) = some tool) ∧
    ∀ service, serviceOf ((msg.get "params").getD .null) = some service →
      ∃ m, s.Finds m ∧ m.name = service

/-- A search names the service among the first it finds. -/
def Findable (services : List ViewService) (n : ServiceName) : Prop :=
  ∃ query before t after, services = before ++ t :: after ∧ t.name = n ∧
    matchesQuery query t = true ∧ (before.filter (matchesQuery query)).length < MAX_SEARCH_RESULTS

omit [Web] [Jaq] in
theorem findable_iff {n : ServiceName} :
    Findable s.services n ↔ ∃ query, ∃ t ∈ s.shown query, t.name = n := by
  simp only [Findable, shown, found, mem_take_filter_iff]
  constructor
  · rintro ⟨query, before, t, after, hs, rfl, hq, hk⟩
    exact ⟨query, t, ⟨before, after, hs, hq, hk⟩, rfl⟩
  · rintro ⟨query, t, ⟨before, after, hs, hq, hk⟩, rfl⟩
    exact ⟨query, before, t, after, hs, rfl, hq, hk⟩

theorem toolsCall_of_listed {params : Json} {name : String} {t : ViewService}
    (hname : toolOf params = some name) (ht : s.listed name = some t) :
    s.toolsCall params = runTool t (params.get "arguments") := by
  have hname : (params.get "name").bind Json.asStr = some name := hname
  rw [toolsCall, hname, orError_some]
  simp only [ok_bind, ht]

omit [Web] in
theorem answers_of_runTool {t : ViewService} {arguments : Option Json} {result : Json}
    (h : runTool t arguments = .ok (.answers result)) : ∃ why, result = toolResult why true := by
  obtain ⟨⟨argv, stdin, args⟩, -, h⟩ := bind_eq_ok.mp h
  have h := pure_eq_ok.mp h
  split at h
  · cases h
  · cases h
    exact ⟨_, rfl⟩

omit [Web] [Jaq] in
theorem toolResult_ne {a b : String} : toolResult a false ≠ toolResult b true := by
  simp [toolResult]

/-- A service that has the search tool's name is called in its place. -/
theorem not_finds_of_listed {t : ViewService} (ht : s.listed SEARCH_TOOL = some t)
    (n : ServiceName) : ¬s.Finds n := by
  rintro ⟨params, query, -, htool, hcall, -⟩
  rw [toolsCall_of_listed htool ht] at hcall
  obtain ⟨why, hwhy⟩ := answers_of_runTool hcall
  exact toolResult_ne hwhy

omit [Web] in
theorem runTool_empty (t : ViewService) : ∃ call, runTool t (some (.obj [])) = .ok (.calls call) ∧
    call.service = t.name :=
  ⟨⟨t.name, ⟨[], rfl⟩, [], ⟨none, none, none⟩⟩, rfl, rfl⟩

omit [Web] [Jaq] in
theorem listed_of_mem {n : ServiceName} {t : ViewService} (ht : t ∈ s.services) (hn : t.name = n) :
    ∃ u, s.listed n.name = some u ∧ u.name = n := by
  obtain ⟨u, hu⟩ : ∃ u, s.listed n.name = some u := by
    apply Option.isSome_iff_exists.mp
    rw [listed, List.find?_isSome]
    exact ⟨t, ht, decide_eq_true (congrArg ServiceName.name hn)⟩
  exact ⟨u, hu, ServiceName.name_injective (listed_eq_some hu).2⟩

/-- Where every service is a tool of its own, each is reached. -/
theorem reaches_of_not_searching (hs : s.searching = false) {n : ServiceName} {t : ViewService}
    (ht : t ∈ s.services) (hn : t.name = n) : s.Reaches n := by
  obtain ⟨u, hu, hun⟩ := listed_of_mem ht hn
  obtain ⟨call, hcall, hservice⟩ := runTool_empty u
  have htool : toolOf (((request n.name []).get "params").getD .null) = some n.name :=
    toolOf_request n.name []
  refine ⟨request n.name [], _, _, call, handle_request ?_, hservice.trans hun, ⟨n.name, ?_, htool⟩,
    ?_⟩
  · rw [toolsCall_of_listed htool hu]
    exact hcall
  · rw [toolNames_toolsList, hs]
    exact List.mem_map.mpr ⟨t, ht, congrArg ServiceName.name hn⟩
  · intro service hservice
    cases hservice

/-- Where a service has the name of a tool that stands for others, only those so named are. -/
theorem reaches_of_named (hs : s.searching = true) {t : ViewService}
    (ht : s.listed SEARCH_TOOL = some t ∨ s.listed CALL_TOOL = some t) {n : ServiceName}
    (h : s.Reaches n) : n.name = SEARCH_TOOL ∨ n.name = CALL_TOOL := by
  obtain ⟨msg, id, version, call, hcall, rfl, ⟨tool, htool, hname⟩, hgiven⟩ := h
  rw [toolNames_toolsList, if_pos hs] at htool
  have hcall := calls_of_handle hcall
  rcases (calls_of_toolsCall hcall).2.service with hself | ⟨hcallTool, hservice⟩
  · rw [hname] at hself
    obtain rfl := Option.some.inj hself
    simpa using htool
  · rcases ht with ht | ht
    · obtain ⟨m, hm, -⟩ := hgiven _ hservice
      exact absurd hm (not_finds_of_listed ht m)
    · rw [toolsCall_of_listed hcallTool ht] at hcall
      rw [(runTool_calls hcall).1]
      exact .inr (listed_eq_some ht).2

theorem toolsCall_of_not_listed {params : Json} {name : String}
    (hname : toolOf params = some name) (hnone : s.listed name = none) :
    s.toolsCall params =
      if name = SEARCH_TOOL ∧ s.searching = true then do
        return .answers (← s.search (params.get "arguments"))
      else if name = CALL_TOOL ∧ s.searching = true then do
        let (service, rest) ← takeService (params.get "arguments")
        let tool ← orError (s.listed service) (.new INVALID_PARAMS ("no service named `" ++ service ++
          "` that you may call (find one with `" ++ SEARCH_TOOL ++ "`)"))
        runTool tool (some rest)
      else .error (.new INVALID_PARAMS ("unknown tool: " ++ name)) := by
  have hname : (params.get "name").bind Json.asStr = some name := hname
  rw [toolsCall, hname, orError_some]
  simp only [ok_bind, hnone]

theorem finds_iff (hs : s.searching = true) (hnone : s.listed SEARCH_TOOL = none)
    {n : ServiceName} : s.Finds n ↔ Findable s.services n := by
  rw [findable_iff]
  constructor
  · rintro ⟨params, query, -, -, -, ht⟩
    exact ⟨query, ht⟩
  · rintro ⟨query, ht⟩
    let params : Json := .obj [("name", .text SEARCH_TOOL), ("arguments", .obj [("query", .text query)])]
    have htool : toolOf params = some SEARCH_TOOL := rfl
    have hquery : ((params.get "arguments").bind fun a => (a.get "query").bind Json.asStr) =
        some query := congrArg some String.ofList_toList
    refine ⟨params, query, ?_, htool, ?_, ht⟩
    · rw [toolNames_toolsList, if_pos hs]
      exact List.mem_cons_self
    · rw [toolsCall_of_not_listed htool hnone, if_pos ⟨rfl, hs⟩, search, hquery]
      rfl

theorem reaches_of_finds (hs : s.searching = true) (hnone : s.listed CALL_TOOL = none)
    {n : ServiceName} {t : ViewService} (ht : t ∈ s.services) (hn : t.name = n) (hfinds : s.Finds n) :
    s.Reaches n := by
  obtain ⟨u, hu, hun⟩ := listed_of_mem ht hn
  obtain ⟨call, hcall, hservice⟩ := runTool_empty u
  let msg : Json := request CALL_TOOL [("service", .text n.name)]
  have htool : toolOf ((msg.get "params").getD .null) = some CALL_TOOL := rfl
  have hgiven : serviceOf ((msg.get "params").getD .null) = some n.name :=
    congrArg some String.ofList_toList
  have htake : takeService (((msg.get "params").getD .null).get "arguments") =
      .ok (n.name, .obj []) := by
    show Except.ok (String.ofList n.name.toList, Json.obj []) = _
    rw [String.ofList_toList]
  refine ⟨msg, _, _, call, handle_request ?_, hservice.trans hun, ⟨CALL_TOOL, ?_, htool⟩, ?_⟩
  · have hne : ¬(CALL_TOOL = SEARCH_TOOL ∧ s.searching = true) := fun h =>
      absurd h.1 (by decide)
    rw [toolsCall_of_not_listed htool hnone, if_neg hne, if_pos ⟨rfl, hs⟩, htake]
    change (do
      let tool ← orError (s.listed n.name) _
      runTool tool (some (.obj []))) = _
    rw [hu, orError_some]
    exact hcall
  · rw [toolNames_toolsList, if_pos hs]
    exact List.mem_cons_of_mem _ List.mem_cons_self
  · intro service hservice
    rw [hgiven] at hservice
    exact ⟨n, hfinds, Option.some.inj hservice⟩

/-- Where no service has such a name, those reached are those a search names. -/
theorem finds_of_reaches (hs : s.searching = true) (hsearch : s.listed SEARCH_TOOL = none)
    (hcallTool : s.listed CALL_TOOL = none) {n : ServiceName} (h : s.Reaches n) : s.Finds n := by
  obtain ⟨msg, id, version, call, hcall, rfl, ⟨tool, htool, hname⟩, hgiven⟩ := h
  rw [toolNames_toolsList, if_pos hs] at htool
  obtain ⟨⟨t, ht, hn⟩, hasks⟩ := calls_of_toolsCall (calls_of_handle hcall)
  rcases hasks.service with hself | ⟨-, hservice⟩
  · obtain ⟨u, hu, -⟩ := listed_of_mem ht hn
    rw [hname] at hself
    rw [← Option.some.inj hself] at hu
    rcases List.mem_cons.mp htool with rfl | htool
    · rw [hsearch] at hu
      cases hu
    · obtain rfl := List.mem_singleton.mp htool
      rw [hcallTool] at hu
      cases hu
  · obtain ⟨m, hm, hmn⟩ := hgiven _ hservice
    rwa [← ServiceName.name_injective hmn]

omit [Web] [Jaq] in
theorem listed_eq_none_iff {name : String} :
    s.listed name = none ↔ ∀ t ∈ s.services, t.name.name ≠ name := by
  rw [listed, List.find?_eq_none]
  simp

omit [Web] [Jaq] in
/-- More services than there are tools that stand for them are not all named so. -/
theorem exists_other (hnodup : (s.services.map (·.name)).Nodup) (hs : s.searching = true) :
    ∃ t ∈ s.services, t.name.name ≠ SEARCH_TOOL ∧ t.name.name ≠ CALL_TOOL := by
  by_contra hall
  push Not at hall
  have hnames : (s.services.map (·.name)).map ServiceName.name ⊆ [SEARCH_TOOL, CALL_TOOL] := by
    intro name hname
    simp only [List.mem_map, exists_exists_and_eq_and] at hname
    obtain ⟨t, ht, rfl⟩ := hname
    by_cases h : t.name.name = SEARCH_TOOL
    · simp [h]
    · simp [hall t ht h]
  have hdistinct : ((s.services.map (·.name)).map ServiceName.name).Nodup :=
    hnodup.map ServiceName.name_injective
  have hle := (List.subperm_of_subset hdistinct hnames).length_le
  have hmany : s.services.length > 40 := of_decide_eq_true hs
  simp only [List.length_map, List.length_cons, List.length_nil] at hle
  omega

/-- A client reaches every service just where each is a tool of its own, or no service has the
name of a tool that stands for the others and a search names each. -/
theorem reaches_iff (hnodup : (s.services.map (·.name)).Nodup) :
    (∀ n, s.Reaches n ↔ n ∈ s.services.map (·.name)) ↔ s.services.length ≤ SEARCH_THRESHOLD ∨
      (∀ t ∈ s.services, t.name.name ≠ SEARCH_TOOL ∧ t.name.name ≠ CALL_TOOL) ∧
      ∀ t ∈ s.services, Findable s.services t.name := by
  have hsound : ∀ n, s.Reaches n → n ∈ s.services.map (·.name) := by
    rintro n ⟨msg, id, version, call, hcall, rfl, -⟩
    exact List.mem_map.mpr (calls_of_toolsCall (calls_of_handle hcall)).1
  by_cases hs : s.searching = true
  · have hmany : ¬s.services.length ≤ SEARCH_THRESHOLD := not_le.mpr (of_decide_eq_true hs)
    rw [or_iff_right hmany]
    constructor
    · intro hall
      have hnone : ∀ name, name = SEARCH_TOOL ∨ name = CALL_TOOL → s.listed name = none := by
        intro name hname
        cases hlisted : s.listed name with
        | none => rfl
        | some t =>
          obtain ⟨u, hu, hne⟩ := exists_other hnodup hs
          have hreach := (hall u.name).mpr (List.mem_map_of_mem hu)
          have hnamed : s.listed SEARCH_TOOL = some t ∨ s.listed CALL_TOOL = some t := by
            rcases hname with rfl | rfl
            · exact .inl hlisted
            · exact .inr hlisted
          rcases reaches_of_named hs hnamed hreach with h | h
          · exact absurd h hne.1
          · exact absurd h hne.2
      have hsearch := hnone SEARCH_TOOL (.inl rfl)
      have hcall := hnone CALL_TOOL (.inr rfl)
      refine ⟨fun t ht => ⟨listed_eq_none_iff.mp hsearch t ht, listed_eq_none_iff.mp hcall t ht⟩,
        fun t ht => ?_⟩
      have hreach := (hall t.name).mpr (List.mem_map_of_mem ht)
      exact (finds_iff hs hsearch).mp (finds_of_reaches hs hsearch hcall hreach)
    · rintro ⟨hne, hfind⟩ n
      have hsearch := listed_eq_none_iff.mpr fun t ht => (hne t ht).1
      have hcall := listed_eq_none_iff.mpr fun t ht => (hne t ht).2
      refine ⟨hsound n, fun hn => ?_⟩
      obtain ⟨t, ht, rfl⟩ := List.mem_map.mp hn
      exact reaches_of_finds hs hcall ht rfl ((finds_iff hs hsearch).mpr (hfind t ht))
  · have hfew : s.services.length ≤ SEARCH_THRESHOLD := by
      simpa [searching] using hs
    refine iff_of_true (fun n => ⟨hsound n, fun hn => ?_⟩) (.inl hfew)
    obtain ⟨t, ht, rfl⟩ := List.mem_map.mp hn
    exact reaches_of_not_searching (Bool.not_eq_true _ ▸ hs) ht rfl

variable [Crypto]

/-- A server of a view, whatever its client has agreed on. -/
def serving {root : NodeId} (held : HeldView root) (negotiated : Option String)
    (listChanged : Bool) : McpServer := ⟨servicesIn held.view, negotiated, listChanged⟩

omit [Web] [Jaq] in
theorem names_serving {root : NodeId} (held : HeldView root) (negotiated : Option String)
    (listChanged : Bool) : (serving held negotiated listChanged).services.map (·.name) =
      held.view.entries.map (·.name) := by
  rw [serving, servicesIn, List.map_map]
  rfl

/-- Whatever is asked, only a service of the view is called, and as it was asked; and a client
reaches all of them by the tools that are listed just where they are few enough to be tools of
their own, or none has the name of a tool that stands for the others and a search names each. -/
theorem tools_offer_view {root : NodeId} (held : HeldView root) (negotiated : Option String)
    (listChanged : Bool) :
    (∀ msg id version call, ((serving held negotiated listChanged).handle msg).2 =
        .calls id version call →
      call.service ∈ held.view.entries.map (·.name) ∧ Asks ((msg.get "params").getD .null) call) ∧
    ((∀ n, (serving held negotiated listChanged).Reaches n ↔ n ∈ held.view.entries.map (·.name)) ↔
      held.view.entries.length ≤ SEARCH_THRESHOLD ∨
        (∀ e ∈ held.view.entries, e.name.name ≠ SEARCH_TOOL ∧ e.name.name ≠ CALL_TOOL) ∧
        ∀ e ∈ held.view.entries, Findable (servicesIn held.view) e.name) := by
  have hnames := names_serving held negotiated listChanged
  constructor
  · intro msg id version call hcall
    obtain ⟨hmem, hasks⟩ := calls_of_toolsCall (calls_of_handle hcall)
    exact ⟨hnames ▸ List.mem_map.mpr hmem, hasks⟩
  · have hnodup : (held.view.entries.map (·.name)).Nodup :=
      (View.verify_eq_ok.mp held.verified).2.1.imp fun h => h.ne
    have hiff := reaches_iff (s := serving held negotiated listChanged) (hnames ▸ hnodup)
    rw [hnames] at hiff
    simpa [serving, servicesIn] using hiff

end

/-! ## A service named as a tool -/

section Sample

attribute [local instance] Crypto.plain Web.plain

/-- A compiler that takes every text. -/
@[reducible] def jaqPlain : Jaq where
  fault _ := none

attribute [local instance] jaqPlain

/-- The text of the `i`-th of forty names. -/
def longText (i : Nat) : String := String.ofList ['s', Nat.digitChar (i / 10), Nat.digitChar (i % 10)]

theorem isServiceName_longText : ∀ i : Fin 40, isServiceName (longText i) = true := by
  decide +kernel

theorem isServiceName_callTool : isServiceName CALL_TOOL = true := by decide

def longName (i : Fin 40) : ServiceName := ⟨longText i, isServiceName_longText i⟩

def callName : ServiceName := ⟨CALL_TOOL, isServiceName_callTool⟩

theorem strictMono_longName : StrictMono longName := by
  rw [Fin.strictMono_iff_lt_succ]
  decide +kernel

theorem callName_lt : ∀ i : Fin 40, callName < longName i := by
  decide +kernel

/-- A view of 41 services, one of them named `call_service`. -/
def manyView : View where
  head := sampleSigned.head
  entries := (callName :: (List.finRange 40).map longName).map fun n =>
    SignedEntry.sign sampleRoot 1 n (sampleService [])

theorem names_manyView :
    manyView.entries.map (·.name) = callName :: (List.finRange 40).map longName := by
  rw [manyView, List.map_map]
  exact List.map_id _

theorem verify_manyView : manyView.verify (nodeId sampleRoot) = .ok () := by
  refine View.verify_eq_ok.mpr ⟨(SignedPolicy.verify_eq_ok.mp verify_sampleSigned).1, ?_, ?_⟩
  · rw [names_manyView, List.pairwise_cons]
    refine ⟨fun n hn => ?_, ?_⟩
    · obtain ⟨i, -, rfl⟩ := List.mem_map.mp hn
      exact callName_lt i
    · exact List.pairwise_map.mpr ((List.pairwise_lt_finRange 40).imp fun h => strictMono_longName h)
  · intro e he
    obtain ⟨n, -, rfl⟩ := List.mem_map.mp he
    exact ⟨checkEntryVersion_eq_ok.mpr ⟨rfl, le_rfl⟩, SignedEntry.verify_sign ..⟩

/-- A caller that holds it. -/
def manyHeld : HeldView (nodeId sampleRoot) := ⟨manyView, verify_manyView, ⟨[]⟩, 0, 0⟩

/-- The other services of the view are out of reach. -/
theorem not_offered : ¬∀ n, (serving manyHeld none true).Reaches n ↔
    n ∈ manyHeld.view.entries.map (·.name) := by
  intro hall
  have hmem : longName 0 ∈ manyHeld.view.entries.map (·.name) := by
    show longName 0 ∈ manyView.entries.map (·.name)
    rw [names_manyView]
    exact List.mem_cons_of_mem _ (List.mem_map_of_mem (List.mem_finRange 0))
  have hcall : (serving manyHeld none true).listed CALL_TOOL =
      some ⟨callName, (sampleService []).description⟩ := rfl
  rcases reaches_of_named rfl (.inr hcall) ((hall (longName 0)).mpr hmem) with h | h
  · exact absurd h (by decide)
  · exact absurd h (by decide)

end Sample

end McpServer

end Wires
