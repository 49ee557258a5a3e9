import Wires.Impl.Frame
import Wires.Impl.Jwks
import Wires.Impl.View

/-!
# The MCP server

`wires/caller/mcp.rs`: an `McpServer` answers JSON-RPC messages, whose tools
are the services of a view. `McpServer.handle` takes one message: the reply it
gives, or the call it makes of a service (what its reply then tells of the
outcome is left out). A `Value`'s object holds a repeated member's last value.
`Jaq` is the jq compiler (`wires/caller/shape.rs`).
-/

namespace Wires

/-! ## Values -/

namespace Json

/-- `Value::get`, of a key. -/
def get (j : Json) (k : String) : Option Json :=
  match j with
  | .obj ms => ms.reverse.lookup k
  | _ => none

/-- `Value::as_str`. -/
def asStr : Json → Option String
  | .str cs => some (String.ofList cs)
  | _ => none

/-- `Value::as_u64`. -/
def asU64 : Json → Option Nat
  | .num i => if 0 ≤ i ∧ i < 2 ^ 64 then some i.toNat else none
  | _ => none

/-- A text. -/
def text (s : String) : Json := .str s.toList

end Json

/-- `help::one_line`. -/
def collapse (s : String) : String :=
  String.intercalate " " ((splitWhitespace s.toList).map String.ofList)

/-! ## Shaping -/

/-- The jq compiler: why a text is no filter. -/
class Jaq where
  fault : String → Option String

/-- The shaping fields. -/
structure ShapeArgs where
  jq : Option String
  head : Option Nat
  maxBytes : Option Nat
deriving DecidableEq

section

variable [Jaq]

/-- A jq program that compiles. -/
structure JqProgram where
  src : String
  compiles : Jaq.fault src = none

/-- `JqProgram::new`. -/
def JqProgram.new (src : String) : Except String JqProgram :=
  match h : Jaq.fault src with
  | some why => .error why
  | none => .ok ⟨src, h⟩

/-- The shaping stages of one call. -/
structure Shape where
  jq : Option JqProgram
  head : Option Nat
  maxBytes : Option Nat

/-- `Shape::new`. -/
def Shape.new (args : ShapeArgs) : Except String Shape := do
  let jq ← match args.jq with
    | none => pure none
    | some src => do
      let p ← JqProgram.new src
      pure (some p)
  return ⟨jq, args.head, args.maxBytes⟩

end

/-! ## Constants -/

def LATEST_PROTOCOL_VERSION : String := "2026-07-28"

def SUPPORTED_PROTOCOL_VERSIONS : List String :=
  ["2026-07-28", "2025-11-25", "2025-06-18", "2025-03-26", "2024-11-05"]

def LEGACY_PROTOCOL_VERSIONS : List String :=
  ["2025-11-25", "2025-06-18", "2025-03-26", "2024-11-05"]

def FIRST_MODERN_VERSION : String := "2026-07-28"

def LIST_TTL_MS : Int := 60000

/-- `help::PREMISE`. -/
def PREMISE : String :=
  "wires is a network for authenticated remote CLI calls. Each service is a\n" ++
  "command-line program on another machine, run by its name, never by host or\n" ++
  "address. Every call runs as you: the machine that runs it checks your\n" ++
  "sign-in against an admin-signed policy of who may call what. A refusal\n" ++
  "(\"denied by host\", exit 77) is that policy, not a fault: don't retry or work\n" ++
  "around it; ask your admin for access."

def USAGE : String :=
  "Each tool is one service you may call (past a few dozen, find one with `search_services` " ++
  "and run it with `call_service`). Pass its arguments as `args`, one string per argument, no " ++
  "shell quoting. There is no shell: filter output with the program's own flags or the " ++
  "`jq`/`head`/`max_bytes` fields."

def instructions : String := collapse PREMISE ++ " " ++ USAGE

def META_PROTOCOL_VERSION : String := "io.modelcontextprotocol/protocolVersion"

def META_SERVER_INFO : String := "io.modelcontextprotocol/serverInfo"

def REFUSAL_HINT : String :=
  "A refusal (`denied by host`) is policy, not a fault: don't retry; ask your admin."

def SERVER_NAME : String := "wires"

/-- `CARGO_PKG_VERSION`. -/
def PACKAGE_VERSION : String := "0.1.0"

/-- Past this many services, none is a tool of its own. -/
def SEARCH_THRESHOLD : Nat := 40

def SEARCH_TOOL : String := "search_services"

def CALL_TOOL : String := "call_service"

/-- The most services one search names. -/
def MAX_SEARCH_RESULTS : Nat := 20

def LIST_CHANGED : String := "notifications/tools/list_changed"

def PARSE_ERROR : Int := -32700

def INVALID_REQUEST : Int := -32600

def METHOD_NOT_FOUND : Int := -32601

def INVALID_PARAMS : Int := -32602

def UNSUPPORTED_PROTOCOL_VERSION : Int := -32022

/-! ## Errors and results -/

/-- A JSON-RPC error. -/
structure RpcError where
  code : Int
  message : String
  data : Option Json

/-- `RpcError::new`. -/
def RpcError.new (code : Int) (message : String) : RpcError := ⟨code, message, none⟩

/-- `RpcError::unsupported_version`. -/
def RpcError.unsupportedVersion (requested : String) : RpcError :=
  ⟨UNSUPPORTED_PROTOCOL_VERSION, "Unsupported protocol version",
    some (.obj [("supported", .arr (SUPPORTED_PROTOCOL_VERSIONS.map Json.text)),
      ("requested", .text requested)])⟩

/-- `error_response`. -/
def errorResponse (id : Json) (e : RpcError) : Json :=
  .obj [("jsonrpc", .text "2.0"), ("id", id), ("error", .obj
    ([("code", .num e.code), ("message", .text e.message)] ++
      e.data.toList.map fun data => ("data", data)))]

/-- A tool's result: one block of text. -/
def toolResult (text : String) (isError : Bool) : Json :=
  .obj [("content", .arr [.obj [("type", .text "text"), ("text", .text text)]]),
    ("isError", .bool isError)]

/-- `is_modern`. -/
def isModern (version : String) : Bool := FIRST_MODERN_VERSION ≤ version

/-- `server_info`. -/
def serverInfo : Json := .obj [("name", .text SERVER_NAME), ("version", .text PACKAGE_VERSION)]

/-- `stamp`. -/
def stamp (result : Json) (version : Option String) : Json :=
  match version.filter isModern, result with
  | some version, .obj ms => .obj (ms ++ [("resultType", .text "complete"),
      ("_meta", .obj [(META_PROTOCOL_VERSION, .text version), (META_SERVER_INFO, serverInfo)])])
  | _, result => result

/-! ## Tools -/

/-- A service of the view, as a tool offers it. -/
structure ViewService where
  name : ServiceName
  description : String
deriving DecidableEq

/-- `services_in`. -/
def servicesIn (view : View) : List ViewService :=
  view.entries.map fun e => ⟨e.name, e.service.description⟩

/-- `first_sentence`, of a text on one line. -/
def firstSentence : List Char → List Char
  | [] => []
  | c :: cs =>
    if (c = '.' ∨ c = '!' ∨ c = '?') ∧ cs.head? = some ' ' then [c] else c :: firstSentence cs

/-- `describe`. -/
def ViewService.describe (t : ViewService) : String :=
  String.ofList (firstSentence (collapse t.description).toList)

/-- The properties of every tool's input. -/
def inputProperties : List (String × Json) :=
  [("args", .obj [("type", .text "array"), ("items", .obj [("type", .text "string")]),
    ("description", .text <| "The primary way to pass input: arguments appended to the remote " ++
      "command, e.g. the SQL statement. Each element is one argument; no shell quoting is needed.")]),
  ("stdin", .obj [("type", .text "string"),
    ("description", .text <| "Secondary: text fed to the remote command's stdin, for input too " ++
      "large or too structured to pass as arguments. Prefer `args` when the command accepts its " ++
      "input that way.")]),
  ("jq", .obj [("type", .text "string"),
    ("description", .text <| "Optional jq filter applied to stdout before it is returned " ++
      "(strings print raw, other values as compact JSON). Prefer the command's own filter flags " ++
      "when it has them.")]),
  ("head", .obj [("type", .text "integer"), ("minimum", .num 0),
    ("description", .text "Optional: keep only the first N lines of stdout (after `jq`).")]),
  ("max_bytes", .obj [("type", .text "integer"), ("minimum", .num 0),
    ("description",
      .text "Optional: keep at most N bytes of stdout (after `jq` and `head`).")])]

/-- `input_schema`. -/
def inputSchema : Json :=
  .obj [("type", .text "object"), ("properties", .obj inputProperties),
    ("additionalProperties", .bool false)]

/-- `search_tool`. -/
def searchTool (count : Nat) : Json :=
  .obj [("name", .text SEARCH_TOOL),
    ("description", .text ("Find services you may call, among " ++ toString count ++
      ", by a word in their name or description; then run one with `" ++ CALL_TOOL ++ "`. " ++
      REFUSAL_HINT)),
    ("inputSchema", .obj [("type", .text "object"),
      ("properties", .obj [("query", .obj [("type", .text "string"),
        ("description", .text "A word to look for, e.g. `orders`.")])]),
      ("required", .arr [.text "query"]), ("additionalProperties", .bool false)])]

/-- `call_tool`. -/
def callTool : Json :=
  .obj [("name", .text CALL_TOOL),
    ("description", .text ("Run a service found with `" ++ SEARCH_TOOL ++ "`, by name, as you. " ++
      REFUSAL_HINT)),
    ("inputSchema", .obj [("type", .text "object"),
      ("properties", .obj (inputProperties ++ [("service", .obj [("type", .text "string"),
        ("description", .text ("The service's name, as `" ++ SEARCH_TOOL ++ "` lists it."))])])),
      ("additionalProperties", .bool false), ("required", .arr [.text "service"])])]

/-- `discover`. -/
def discover : Json :=
  .obj [("supportedVersions", .arr (SUPPORTED_PROTOCOL_VERSIONS.map Json.text)),
    ("capabilities", .obj [("tools", .obj [])]), ("instructions", .text instructions),
    ("ttlMs", .num LIST_TTL_MS), ("cacheScope", .text "public")]

/-! ## Arguments -/

/-- The names `parse_arguments` accepts. -/
def ARGUMENTS : List String := ["args", "stdin", "jq", "head", "max_bytes"]

/-- A field that may be left out, or null; `read` gives none for a value of another kind. -/
def optArgument {α : Type} (arguments : Json) (key : String) (kind : String)
    (read : Json → Option α) : Except String (Option α) :=
  match arguments.get key with
  | none | some .null => .ok none
  | some v => do
    let a ← orError (read v) ("`" ++ key ++ "` must be " ++ kind)
    return some a

/-- The strings of an array of them. -/
def asStrings : Json → Option (List String)
  | .arr items => items.mapM Json.asStr
  | _ => none

/-- Every member is one that `parse_arguments` accepts. -/
def noOtherArguments (ms : List (String × Json)) : Except String Unit :=
  match ((Json.sortMembers ms).map Prod.fst).find? fun k => k ∉ ARGUMENTS with
  | some extra => .error ("unexpected argument `" ++ extra ++ "` (expected one of `" ++
      String.intercalate "`, `" ARGUMENTS ++ "`)")
  | none => .ok ()

/-- `parse_arguments`. -/
def parseArguments (arguments : Option Json) :
    Except String (Argv × List UInt8 × ShapeArgs) :=
  match arguments with
  | none | some .null => .ok (⟨[], rfl⟩, [], ⟨none, none, none⟩)
  | some (.obj ms) => do
    noOtherArguments ms
    let args ← optArgument (.obj ms) "args" "an array of strings" asStrings
    let argv ← mapErr (fun e => "`args`: " ++ e.display) (Argv.new (args.getD []))
    let stdin ← optArgument (.obj ms) "stdin" "a string" Json.asStr
    let jq ← optArgument (.obj ms) "jq" "a string" Json.asStr
    let head ← optArgument (.obj ms) "head" "a non-negative integer" Json.asU64
    let maxBytes ← optArgument (.obj ms) "max_bytes" "a non-negative integer" Json.asU64
    return (argv, utf8 (stdin.getD "").toList, ⟨jq, head, maxBytes⟩)
  | some _ => .error "arguments must be an object"

/-- `take_service`: the `service` of the arguments, and the rest of them. -/
def takeService (arguments : Option Json) : Except RpcError (String × Json) :=
  match arguments with
  | some (.obj ms) => do
    let service ← orError (((Json.obj ms).get "service").bind Json.asStr)
      (.new INVALID_PARAMS ("`" ++ CALL_TOOL ++ "` needs `service`"))
    return (service, .obj (ms.filter fun m => m.1 ≠ "service"))
  | _ => .error (.new INVALID_PARAMS ("`" ++ CALL_TOOL ++ "` needs `service`"))

/-! ## The server -/

/-- The services a server offers, and what its client has agreed on. -/
structure McpServer where
  services : List ViewService
  negotiated : Option String
  listChanged : Bool
deriving DecidableEq

/-- A call a server makes. -/
structure OutgoingCall [Jaq] where
  service : ServiceName
  argv : Argv
  stdin : List UInt8
  shape : Shape

/-- What `tools_call` comes to: an answer at once, or a call to make. -/
inductive ToolCall [Jaq] where
  | answers (result : Json)
  | calls (call : OutgoingCall)

/-- What one message comes to. -/
inductive Handled [Jaq] where
  | silent
  | replies (response : Json)
  /-- A call is made; the reply is to the request `id`, as `version` has it. -/
  | calls (id : Json) (version : Option String) (call : OutgoingCall)

namespace McpServer

/-- `McpServer::new`. -/
def new (services : List ViewService) : McpServer := ⟨services, none, false⟩

/-- `with_list_changed`. -/
def withListChanged (s : McpServer) : McpServer := { s with listChanged := true }

/-- `set_services`: whether what a client sees changed. -/
def setServices (s : McpServer) (services : List ViewService) : McpServer × Bool :=
  ({ s with services }, s.services ≠ services)

/-- `version_for`. -/
def versionFor (s : McpServer) (params : Json) : Option String :=
  ((params.get "_meta").bind fun m => (m.get META_PROTOCOL_VERSION).bind Json.asStr) <|> s.negotiated

/-- `initialize`. -/
def initialize_ (s : McpServer) (params : Json) : McpServer × Json :=
  let agreed := (((params.get "protocolVersion").bind Json.asStr).filter fun v =>
    v ∈ LEGACY_PROTOCOL_VERSIONS).getD (LEGACY_PROTOCOL_VERSIONS.headD "")
  ({ s with negotiated := some agreed },
    .obj [("protocolVersion", .text agreed),
      ("capabilities", .obj [("tools", .obj [("listChanged", .bool s.listChanged)])]),
      ("serverInfo", serverInfo), ("instructions", .text instructions)])

/-- `searching`. -/
def searching (s : McpServer) : Bool := s.services.length > SEARCH_THRESHOLD

/-- `tools_list`. -/
def toolsList (s : McpServer) (modern : Bool) : Json :=
  let tools := if s.searching then [searchTool s.services.length, callTool]
    else s.services.map fun t => .obj [("name", .text t.name.name),
      ("description", .text t.describe), ("inputSchema", inputSchema)]
  .obj (("tools", .arr tools) :: if modern then
    [("ttlMs", .num LIST_TTL_MS), ("cacheScope", .text "private")] else [])

/-- The service of a name. -/
def listed (s : McpServer) (name : String) : Option ViewService :=
  s.services.find? fun t => t.name.name = name

/-- Whether a service's name or description contains a text, ignoring case. -/
def matchesQuery (query : String) (t : ViewService) : Bool :=
  containsText (asciiLower t.name.name) (asciiLower query) ||
    containsText (asciiLower t.description) (asciiLower query)

/-- The services a search finds. -/
def found (s : McpServer) (query : String) : List ViewService := s.services.filter (matchesQuery query)

/-- Those it names. -/
def shown (s : McpServer) (query : String) : List ViewService :=
  (s.found query).take MAX_SEARCH_RESULTS

/-- A service found, on one line. -/
def hit (t : ViewService) : String := t.name.name ++ ": " ++ collapse t.description

section

variable [Web]

/-- The text of a search. -/
def searchText (s : McpServer) (query : String) : String :=
  if s.found query = [] then "no service you may call matches " ++ Web.quoted query
  else
    String.intercalate "\n" ((s.shown query).map hit) ++
      if (s.found query).length > MAX_SEARCH_RESULTS then
        "\n[" ++ toString ((s.found query).length - MAX_SEARCH_RESULTS) ++ " more; narrow the query]"
      else ""

/-- `search`. -/
def search (s : McpServer) (arguments : Option Json) : Except RpcError Json := do
  let query ← orError (arguments.bind fun a => (a.get "query").bind Json.asStr)
    (.new INVALID_PARAMS "`query` must be a string")
  return toolResult (s.searchText query) false

variable [Jaq]

/-- What `tools_call` does with a tool's arguments. -/
def runTool (tool : ViewService) (arguments : Option Json) : Except RpcError ToolCall := do
  let (argv, stdin, args) ← mapErr (RpcError.new INVALID_PARAMS) (parseArguments arguments)
  return match Shape.new args with
    | .ok shape => .calls ⟨tool.name, argv, stdin, shape⟩
    | .error why => .answers (toolResult ("wires: " ++ why) true)

/-- `tools_call`. -/
def toolsCall (s : McpServer) (params : Json) : Except RpcError ToolCall := do
  let name ← orError ((params.get "name").bind Json.asStr)
    (.new INVALID_PARAMS "tools/call: missing tool name")
  let arguments := params.get "arguments"
  match s.listed name with
  | some tool => runTool tool arguments
  | none =>
    if name = SEARCH_TOOL ∧ s.searching = true then
      return .answers (← s.search arguments)
    else if name = CALL_TOOL ∧ s.searching = true then
      let (service, rest) ← takeService arguments
      let tool ← orError (s.listed service) (.new INVALID_PARAMS ("no service named `" ++ service ++
        "` that you may call (find one with `" ++ SEARCH_TOOL ++ "`)"))
      runTool tool (some rest)
    else .error (.new INVALID_PARAMS ("unknown tool: " ++ name))

/-- The reply to a request that was answered. -/
def reply (id : Json) (version : Option String) : Except RpcError Json → Json
  | .ok result => .obj [("jsonrpc", .text "2.0"), ("id", id), ("result", stamp result version)]
  | .error e => errorResponse id e

/-- `handle`. -/
def handle (s : McpServer) (msg : Json) : McpServer × Handled :=
  match msg with
  | .obj _ =>
    let method := (msg.get "method").bind Json.asStr
    match msg.get "id" with
    | none => (s, .silent)
    | some id =>
      match method with
      | none => (s, .replies (errorResponse id (.new INVALID_REQUEST "missing method")))
      | some method =>
        let params := (msg.get "params").getD .null
        let version := s.versionFor params
        match version.filter fun v => v ∉ SUPPORTED_PROTOCOL_VERSIONS ∧ method ≠ "initialize" with
        | some v => (s, .replies (errorResponse id (.unsupportedVersion v)))
        | none =>
          let modern := version.any isModern
          if method = "server/discover" then
            (s, .replies (reply id (version <|> some LATEST_PROTOCOL_VERSION) (.ok discover)))
          else if method = "initialize" then
            let (s, result) := s.initialize_ params
            (s, .replies (reply id s.negotiated (.ok result)))
          else if method = "ping" ∧ modern = false then
            (s, .replies (reply id version (.ok (.obj []))))
          else if method = "tools/list" then
            (s, .replies (reply id version (.ok (s.toolsList modern))))
          else if method = "tools/call" then
            match s.toolsCall params with
            | .ok (.answers result) => (s, .replies (reply id version (.ok result)))
            | .ok (.calls call) => (s, .calls id version call)
            | .error e => (s, .replies (reply id version (.error e)))
          else
            (s, .replies (reply id version
              (.error (.new METHOD_NOT_FOUND ("method not found: " ++ method)))))
  | _ => (s, .replies (errorResponse .null
      (.new INVALID_REQUEST "expected a single JSON-RPC request object")))

/-- `handle_line`. -/
def handleLine (s : McpServer) (line : String) : McpServer × Handled :=
  if isBlank line then (s, .silent)
  else
    match Json.parse line.toList with
    | some msg => s.handle msg
    | none => (s, .replies (errorResponse .null
        (.new PARSE_ERROR ("parse error: " ++ Web.serdeError (utf8 line.toList)))))

end

end McpServer

end Wires
