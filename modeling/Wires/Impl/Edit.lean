import Wires.Impl.HeldView
import Wires.Impl.Jwks

/-!
# The admin's edits

`wires/admin/service.rs`, `settings.rs` and `remove.rs`: what each command
changes of the policy (`PolicyEdit.change`), what it looks at before, and
`edit_policy`, which signs the stored policy, changed, at the next version and
stores it with `adopt_if_newer`. The commands of one keystore are processes:
`Admin.step` is one step of one of them, or one of an `adopt_if_newer` it
called. The command line is read before: whom a `remove` names, by `parseWho`.
-/

namespace Wires

/-- A lifetime, as `Ttl::from_str` takes one. -/
structure Ttl where
  secs : Int64
  pos : 0 < secs

/-- `Ttl::not_after`. -/
def Ttl.notAfter (t : Ttl) (now : Int64) : Int64 := satAdd now t.secs

/-- The fields an edit of a service gives. -/
structure ServiceEdit where
  description : Option String
  allow : Option (List RoleName)
  hosts : Option (List NodeId)

/-- `ServiceEdit::apply`. -/
def ServiceEdit.apply (e : ServiceEdit) (svc : Service) : Service where
  description := e.description.getD svc.description
  allow := e.allow.getD svc.allow
  hosts := e.hosts.getD svc.hosts

/-- A node as the admin named it. -/
structure Named where
  node : NodeId
  label : Option String

/-- `Named`'s `Display`. -/
def Named.display (n : Named) : String :=
  match n.label with
  | some label => label ++ " (" ++ n.node.short ++ "…)"
  | none => n.node.short ++ "…"

/-- Who a `remove` or `restore` names. -/
inductive Who where
  | person (person : Person)
  | node (named : Named)

/-- `Who`'s `Display`. -/
def Who.display : Who → String
  | .person p => p.display
  | .node n => "node " ++ n.display

/-- `Person::new`. -/
def Person.new (issuer : Issuer) (email : String) : Person :=
  ⟨issuer, asciiLower (String.ofList (trim email.toList))⟩

/-- The issuer a `remove` or `restore` of a person is for: the one given, or the one `assumed`. -/
def issuerOf (assumed : Except Anyhow Issuer) : Option String → Except Anyhow Issuer
  | some iss =>
    if trim iss.toList = [] then .error ["--issuer is empty"]
    else .ok (String.ofList (trim iss.toList))
  | none => assumed

/-- `parse_who`: an email (with `@`) is a person, anything else a node; `assumed` is the issuer the
network string names, and `resolve` finds a node by its label or id. -/
def parseWho [Web] (resolve : String → Except Anyhow Named) (assumed : Except Anyhow Issuer)
    (who : String) (issuer : Option String) : Except Anyhow Who :=
  let text := trim who.toList
  if '@' ∈ text ∧ '=' ∉ text then do
    let issuer ← issuerOf assumed issuer
    let (loc, dom) := (splitOnce '@' text).getD ([], [])
    ensure (¬(loc = [] ∨ dom = [] ∨ text.any isWhitespace = true))
      [Web.quoted (String.ofList text) ++ " is not an email address"]
    return .person (Person.new issuer (String.ofList text))
  else do
    ensure (issuer = none) ["--issuer applies to a person (an email), not to a node"]
    let named ← resolve (String.ofList text)
    return .node named

/-- `check_hosts`: no proposed host may be banned. -/
def checkHosts (p : Policy) (hosts : Option (List NodeId)) : Except Anyhow Unit :=
  match (hosts.getD []).find? p.bansNode with
  | some h => .error [h.short ++ "… was removed; `wires restore` it first"]
  | none => .ok ()

/-- An edit of the policy. -/
inductive PolicyEdit where
  | serviceAdd (name : ServiceName) (edit : ServiceEdit)
  | serviceSet (name : ServiceName) (edit : ServiceEdit)
  | serviceRm (name : ServiceName)
  | roleSet (name : RoleName) (matchers : List Matcher) (parsed : ∀ m ∈ matchers, m.Parsed)
  | roleRm (name : RoleName)
  | issuerSet (issuer : Issuer) (config : IssuerConfig)
  | issuerRm (issuer : Issuer)
  | directoryAdd (node : NodeId)
  | directoryRm (node : NodeId)
  | settings (beatSecs freshSecs : Option UInt32)
  | remove (who : Who)
  | restore (who : Who)

namespace PolicyEdit

/-- What the command changes of the policy. -/
def change : PolicyEdit → Policy → Except Anyhow Policy
  | .serviceAdd name edit, p => do
    ensure (¬p.services.containsKey name)
      ["service " ++ name.name ++ " already exists; change it with `wires service set`"]
    checkHosts p edit.hosts
    return { p with services := p.services.insert name (edit.apply ⟨"", [], []⟩) }
  | .serviceSet name edit, p => do
    checkHosts p edit.hosts
    let svc ← orError (p.services.get? name)
      ["no service " ++ name.name ++ "; register it with `wires service add`"]
    return { p with services := p.services.insert name (edit.apply svc) }
  | .serviceRm name, p => do
    ensure (p.services.containsKey name) ["no service " ++ name.name]
    return { p with services := p.services.erase name }
  | .roleSet name matchers _, p => .ok { p with roles := p.roles.insert name matchers }
  | .roleRm name, p => do
    ensure (p.roles.containsKey name) ["no role " ++ name.name]
    return { p with roles := p.roles.erase name }
  | .issuerSet issuer config, p => .ok { p with issuers := p.issuers.insert issuer config }
  | .issuerRm issuer, p => do
    ensure (p.issuers.containsKey issuer) ["no trusted issuer " ++ issuer]
    match p.personBans.keys.find? fun b => b.issuer = issuer with
    | some person => .error [person.display ++ " is removed under " ++ issuer ++ "; `wires restore " ++
        person.email ++ "` first, or keep trusting it"]
    | none => .ok { p with issuers := p.issuers.erase issuer }
  | .directoryAdd node, p => do
    ensure (¬p.bansNode node) [node.short ++ "… was removed; `wires restore` it first"]
    ensure (¬p.directories.contains node) [node.short ++ " is already a directory"]
    return { p with directories := p.directories ++ [node] }
  | .directoryRm node, p => do
    let directories := p.directories.filter fun d => d ≠ node
    ensure (directories.length ≠ p.directories.length) [node.short ++ " is not a directory"]
    return { p with directories }
  | .settings beatSecs freshSecs, p => .ok { p with
      settings := ⟨beatSecs.getD p.settings.beatSecs, freshSecs.getD p.settings.freshSecs⟩ }
  | .remove (.person person), p => do
    ensure (¬p.personBans.containsKey person) [person.display ++ " is already removed"]
    return { p with personBans := p.personBans.insert person () }
  | .remove (.node named), p => do
    ensure (¬p.bans.containsKey named.node) ["node " ++ named.display ++ " is already removed"]
    return { p with
      bans := p.bans.insert named.node ()
      services := p.services.filterMap fun _ svc =>
        some { svc with hosts := svc.hosts.filter fun h => h ≠ named.node }
      directories := p.directories.filter fun d => d ≠ named.node }
  | .restore (.person person), p => do
    ensure (p.personBans.containsKey person) [person.display ++ " is not removed"]
    return { p with personBans := p.personBans.erase person }
  | .restore (.node named), p => do
    ensure (p.bans.containsKey named.node) ["node " ++ named.display ++ " is not removed"]
    return { p with bans := p.bans.erase named.node }

/-- What the command checks before `edit_policy`: of its own arguments, and of the stored policy,
when it reads that. `me` is this machine's node. -/
def before [Crypto] {root : NodeId} (me : NodeId) (read : Except Anyhow (Held root)) :
    PolicyEdit → Except Anyhow Unit
  | .roleSet _ matchers _ => ensure (matchers ≠ []) ["a role needs at least one matcher"]
  | .remove (.person person) => do
    let held ← read
    ensure (held.policy.issuers.containsKey person.issuer) [person.issuer ++
      " is not a trusted issuer, so it admits nobody to ban; pass the issuer that verifies " ++
      person.email ++ " with --issuer"]
  | .remove (.node named) => do
    let _ ← read
    ensure (named.node ≠ me) [named.node.hex ++
      " is this machine's own node: removing it would leave nobody to sign and publish the next " ++
      "policy from"]
  | .restore _ => do
    let _ ← read
  | _ => .ok ()

/-- `edit_policy`'s change: the command's, unless it drops the last directory of a policy that
`listed` some. -/
def guarded (edit : PolicyEdit) (listed : Bool) (p : Policy) : Except Anyhow Policy := do
  let p ← edit.change p
  ensure (¬(listed = true ∧ p.directories = [])) ["this edit would leave the network with no " ++
    "directory, and with none no caller would call any host (nothing could vouch for the policy); " ++
    "add another with `wires directory add` first"]
  return p

end PolicyEdit

section

variable [Crypto] (path : String)

/-- `admin_policy`: the admin's stored policy. -/
def adminPolicy (root : NodeId) (file : PolicyFile) : Except Anyhow (Held root) := do
  let held ← read path root file
  orError held ["this admin holds no signed policy (" ++ path ++ " is missing); copy policy.json " ++
    "from any host or directory of this network there, then run this again"]

/-- The policy `sign_next` signs: the one held, or an empty one, changed, at the next version. -/
def nextPolicy {root : NodeId} (ttl : Ttl) (change : Policy → Except Anyhow Policy)
    (held : Option (Held root)) (now : Int64) : Except Anyhow Policy := do
  let next ← change (match held with
    | some h => h.policy
    | none => Policy.new root)
  return { next with
    version := next.version + 1
    issued := now
    notAfter := max (ttl.notAfter now) (match held with
      | some h => h.policy.notAfter
      | none => Int64.minValue) }

/-- `sign_next`, once the stored policy is read and until it is replaced. -/
def signNext (root : NodeIdentity) (ttl : Ttl) (change : Policy → Except Anyhow Policy)
    (held : Option (Held (nodeId root))) (now : Int64) : Except Anyhow SignedPolicy := do
  let next ← nextPolicy ttl change held now
  context "the new policy is not valid" (anyhow (match held with
    | some h => next.signAfter root h.signed
    | none => next.sign root))

/-- The end of `sign_next`, by what `adopt_if_newer` returned. -/
def signedNext (root : NodeId) (signed : SignedPolicy) : Except Anyhow Bool → Except Anyhow (Held root)
  | .ok true => Held.verify signed root
  | .ok false =>
    .error ["another admin command changed the policy meanwhile; run this one again"]
  | .error e => .error e

end

/-! ## Commands at once -/

/-- Where a command is. -/
inductive EditStage [Crypto] (root : NodeId) where
  | idle
  /-- It is to check what it checks before `edit_policy`. -/
  | looks (edit : PolicyEdit) (ttl : Ttl)
  /-- `edit_policy` is to read whether there are directories. -/
  | lists (edit : PolicyEdit) (ttl : Ttl)
  /-- `sign_next` is to read the policy. -/
  | signs (edit : PolicyEdit) (ttl : Ttl) (listed : Bool)
  /-- `adopt_if_newer` is called with what was signed over `held`. -/
  | adopts (edit : PolicyEdit) (ttl : Ttl) (held : Option (Held root))
  | done (edit : PolicyEdit) (ttl : Ttl) (result : Except Anyhow (Held root))

/-- A keystore's stored policy with the calls adopting into it, and the commands. -/
structure Admin [Crypto] (root : NodeId) (ι : Type) where
  store : Adopt ι
  stage : ι → EditStage root

/-- A step of a command, or of its `adopt_if_newer`. -/
inductive EditEvent (ι : Type) where
  /-- A command is run. -/
  | asks (i : ι) (edit : PolicyEdit) (ttl : Ttl)
  | looks (i : ι)
  | lists (i : ι)
  /-- `candidate` is what it signs, if it signs anything. -/
  | signs (i : ι) (now : Int64) (candidate : Candidate)
  | store (e : AdoptEvent ι)
  /-- `adopt_if_newer` has returned. -/
  | answers (i : ι)
  /-- The root key or the policy cannot be read. -/
  | fails (i : ι) (why : Anyhow)

namespace Admin

variable [Crypto] {ι : Type} [DecidableEq ι] {root : NodeId}

/-- No command run yet. -/
def start (file : PolicyFile) : Admin root ι := ⟨Adopt.start file, fun _ => .idle⟩

/-- Command `i` comes to a stage. -/
def goes (s : Admin root ι) (i : ι) (a : EditStage root) : Admin root ι :=
  { s with stage := Function.update s.stage i a }

/-- `sign_next` reads the policy, signs the next, and calls `adopt_if_newer` with it. -/
def signing (path : String) (root : NodeIdentity) (s : Admin (nodeId root) ι) (i : ι)
    (edit : PolicyEdit) (ttl : Ttl) (listed : Bool) (now : Int64) (c : Candidate) :
    Option (Admin (nodeId root) ι) :=
  match read path (nodeId root) s.store.file with
  | .error why => some (s.goes i (.done edit ttl (.error why)))
  | .ok held =>
    match signNext root ttl (edit.guarded listed) held now with
    | .error why => some (s.goes i (.done edit ttl (.error why)))
    | .ok signed =>
      if c.policy = signed then do
        let store ← s.store.step path (nodeId root) (.call i c now)
        return { s.goes i (.adopts edit ttl held) with store }
      else none

/-- One step; `me` is this machine's node. -/
def step (path : String) (root : NodeIdentity) (me : NodeId) (s : Admin (nodeId root) ι) :
    EditEvent ι → Option (Admin (nodeId root) ι)
  | .asks i edit ttl =>
    match s.stage i with
    | .idle => some (s.goes i (.looks edit ttl))
    | _ => none
  | .looks i =>
    match s.stage i with
    | .looks edit ttl =>
      match edit.before me (adminPolicy path (nodeId root) s.store.file) with
      | .error why => some (s.goes i (.done edit ttl (.error why)))
      | .ok () => some (s.goes i (.lists edit ttl))
    | _ => none
  | .lists i =>
    match s.stage i with
    | .lists edit ttl =>
      match adminPolicy path (nodeId root) s.store.file with
      | .error why => some (s.goes i (.done edit ttl (.error why)))
      | .ok held => some (s.goes i (.signs edit ttl !held.signed.head.head.directories.isEmpty))
    | _ => none
  | .signs i now c =>
    match s.stage i with
    | .signs edit ttl listed => s.signing path root i edit ttl listed now c
    | _ => none
  | .store (.call ..) => none
  | .store e => (s.store.step path (nodeId root) e).map fun store => { s with store }
  | .answers i =>
    match s.stage i, s.store.calls i with
    | .adopts edit ttl _, some ⟨c, _, .returned r⟩ =>
      some (s.goes i (.done edit ttl (signedNext (nodeId root) c.policy r)))
    | _, _ => none
  | .fails i why =>
    match s.stage i with
    | .looks edit ttl | .lists edit ttl | .signs edit ttl _ =>
      some (s.goes i (.done edit ttl (.error why)))
    | _ => none

end Admin

end Wires
