import Wires.Impl.View

/-!
# The whole policy

`library/services/signed_policy.rs`: the policy as the admin edits it
(`Policy`, of typed maps) and as it is signed and published (`SignedPolicy`).
`Policy.items` flattens the maps into key order, `Policy.fromItems` rebuilds
them, `Policy.signWith` signs, and `SignedPolicy.verify` checks.
-/

namespace Wires

/-- The policy as the admin edits it. -/
structure Policy where
  fabric : NodeId
  version : StateVersion
  issued : Int64
  notAfter : Int64
  directories : List NodeId
  roles : SortedMap RoleName (List Matcher)
  services : SortedMap ServiceName Service
  bans : SortedSet NodeId
  personBans : SortedSet Person
  issuers : SortedMap Issuer IssuerConfig
  settings : Settings
deriving DecidableEq

/-- A signed policy: the root-signed head, and every item it commits to. -/
structure SignedPolicy where
  head : SignedPolicyHead
  items : List Item
deriving DecidableEq

instance : Serde SignedPolicy where
  toJson s := .obj [("head", toJson s.head), ("items", toJson s.items)]
  ofJson j := do
    let f ← j.fields ["head", "items"]
    return { head := ← field f "head", items := ← field f "items" }

/-- `admits`: the one rule every admission check shares. No role admits a principal with no
verified email. -/
def admits (matchers : Option (List Matcher)) (principal : Option Principal) : Bool :=
  match matchers, principal with
  | some ms, some p => p.email.isSome && ms.any fun m => m.matches p
  | _, _ => false

/-- `check_order`: the items are strictly in key order. -/
def checkOrder (items : List Item) : Result Unit :=
  refuse (firstUnordered (items.map Item.key)) fun k => "items out of order at " ++ k.display

namespace SignedPolicy

/-- `SignedPolicy::version`. -/
def version (s : SignedPolicy) : StateVersion := s.head.head.version

/-- The email patterns of the policy's items are results of parsing. -/
def Parsed (s : SignedPolicy) : Prop := ∀ i ∈ s.items, i.Parsed

/-- `SignedPolicy::is_newer_than`. -/
def isNewerThan (s other : SignedPolicy) : Bool := s.head.isNewerThan other.head

/-- `SignedPolicy::entries`: every service entry, in item order. -/
def entries (s : SignedPolicy) : List SignedEntry :=
  s.items.filterMap fun
    | .service e => some e
    | _ => none

end SignedPolicy

namespace Policy

/-- `Policy::new`. -/
def new (fabric : NodeId) : Policy where
  fabric
  version := 0
  issued := 0
  notAfter := 0
  directories := []
  roles := ∅
  services := ∅
  bans := ∅
  personBans := ∅
  issuers := ∅
  settings := .default

/-! ## What the policy says -/

/-- `Policy::role_admits`. -/
def roleAdmits (p : Policy) (role : RoleName) (principal : Option Principal) : Bool :=
  admits (p.roles.get? role) principal

/-- `Policy::any_role_admits`. -/
def anyRoleAdmits (p : Policy) (principal : Principal) : Bool :=
  p.roles.values.any fun matchers => admits (some matchers) (some principal)

/-- `Policy::bans_node`. -/
def bansNode (p : Policy) (node : NodeId) : Bool := p.bans.containsKey node

/-- `Policy::bans_person`. -/
def bansPerson (p : Policy) (principal : Principal) : Bool :=
  p.personBans.keys.any fun person => person.matches principal

/-- `Policy::is_host`. -/
def isHost (p : Policy) (node : NodeId) : Bool :=
  !p.bansNode node && p.services.values.any fun s => s.hosts.contains node

/-- `Policy::service`. -/
def service (p : Policy) (name : ServiceName) : Option Service := p.services.get? name

/-- `Policy::assigns`. -/
def assigns (p : Policy) (service : ServiceName) (host : NodeId) : Bool :=
  !p.bansNode host && (p.service service).any fun s => s.hosts.contains host

/-! ## Validation -/

/-- `validate`'s rules for one person ban. -/
def validatePersonBan (person : Person) : Result Unit := do
  ensure (¬(isBlank person.issuer || isBlank person.email))
    (.invalidPolicy "a person ban names no issuer or no email")
  ensure (person.email = asciiLower person.email)
    (.invalidPolicy ("person ban " ++ person.display ++ ": the email is not lowercase"))

/-- `validate`'s rules for one trusted issuer. -/
def validateIssuer (e : Issuer × IssuerConfig) : Result Unit := do
  ensure (¬isBlank e.1) (.invalidPolicy "an issuer is blank")
  ensure (¬e.2.audiences.all isBlank)
    (.invalidPolicy ("issuer " ++ e.1 ++ " accepts no audience"))

/-- `validate`'s rules for one role. -/
def validateRole (p : Policy) (e : RoleName × List Matcher) : Result Unit := do
  ensure (¬e.2.isEmpty) (.invalidPolicy ("role " ++ e.1.name ++ " has no matchers"))
  forEach (fun m => do
    ensure (¬isBlank m.issuer)
      (.invalidPolicy ("role " ++ e.1.name ++ " has a matcher with no issuer"))
    ensure (p.issuers.containsKey m.issuer) (.invalidPolicy
      ("role " ++ e.1.name ++ " names issuer " ++ m.issuer ++ ", which is not trusted"))) e.2

/-- `validate`'s rules for one service. -/
def validateService (p : Policy) (e : ServiceName × Service) : Result Unit := do
  refuse (e.2.allow.find? fun r => !p.roles.containsKey r) fun role =>
    "service " ++ e.1.name ++ " names undefined role " ++ role.name
  refuse (firstRepeat [] e.2.hosts) fun h =>
    "service " ++ e.1.name ++ " lists host " ++ h.hex ++ " twice"
  refuse (e.2.hosts.find? p.bansNode) fun h =>
    "service " ++ e.1.name ++ ": host " ++ h.hex ++ " is banned"

/-- `Policy::validate`: the structural rules the types can't say. -/
def validate (p : Policy) : Result Unit := do
  refuse (firstRepeat [] p.directories) fun d => "directory " ++ d.hex ++ " is listed twice"
  refuse (p.directories.find? p.bansNode) fun d => "directory " ++ d.hex ++ " is banned"
  forEach validatePersonBan p.personBans.keys
  forEach validateIssuer p.issuers.entries
  forEach p.validateRole p.roles.entries
  forEach p.validateService p.services.entries
  ensure (p.settings.beatSecs ≠ 0) (.invalidPolicy "settings: beat_secs is 0")
  ensure (¬p.settings.freshSecs < p.settings.beatSecs)
    (.invalidPolicy "settings: fresh_secs is shorter than beat_secs")

/-! ## Rebuilding from items -/

/-- One turn of `from_items`' loop: the item's entry, and the settings seen so far. -/
def addItem (acc : Policy × Option Settings) (item : Item) : Policy × Option Settings :=
  match item with
  | .role k b => ({ acc.1 with roles := acc.1.roles.insert k b }, acc.2)
  | .service e => ({ acc.1 with services := acc.1.services.insert e.name e.service }, acc.2)
  | .ban k => ({ acc.1 with bans := acc.1.bans.insert k () }, acc.2)
  | .personBan k => ({ acc.1 with personBans := acc.1.personBans.insert k () }, acc.2)
  | .issuer k b => ({ acc.1 with issuers := acc.1.issuers.insert k b }, acc.2)
  | .settings b => (acc.1, some b)

/-- The policy of a head's fields and no item. -/
def ofHead (head : PolicyHead) : Policy :=
  { Policy.new head.fabric with
    version := head.version
    issued := head.issued
    notAfter := head.notAfter
    directories := head.directories }

/-- `Policy::from_items`. -/
def fromItems (head : PolicyHead) (items : List Item) : Result Policy := do
  checkOrder items
  let (policy, settings) := items.foldl addItem (ofHead head, none)
  let settings ← orError settings (.invalidPolicy "no settings item")
  return { policy with settings }

/-! ## Flattening into items and signing -/

variable [Crypto]

/-- The entries of the policy an edit starts from, by name. -/
def keptEntries (previous : Option SignedPolicy) : SortedMap ServiceName SignedEntry :=
  match previous with
  | some prev => SortedMap.collect (prev.entries.map fun e => (e.name, e))
  | none => ∅

/-- The entry of a service: the kept one when it is the same entry and no newer than this
policy, else one signed at this policy's version. -/
def entryFor (p : Policy) (root : NodeIdentity) (kept : SortedMap ServiceName SignedEntry)
    (name : ServiceName) (svc : Service) : SignedEntry :=
  match kept.get? name with
  | some e =>
    if e.isFor p.fabric name svc = true ∧ e.version ≤ p.version then e
    else SignedEntry.sign root p.version name svc
  | none => SignedEntry.sign root p.version name svc

/-- `Policy::items`. -/
def items (p : Policy) (root : NodeIdentity) (previous : Option SignedPolicy) :
    Result (List Item) := do
  ensure (nodeId root = p.fabric) .fabricMismatch
  let kept := keptEntries previous
  return p.roles.entries.map (fun e => .role e.1 e.2) ++
    (p.services.entries.map (fun e => .service (p.entryFor root kept e.1 e.2)) ++
    (p.bans.keys.map .ban ++
    (p.personBans.keys.map .personBan ++
    (p.issuers.entries.map (fun e => .issuer e.1 e.2) ++
    [.settings p.settings]))))

/-- The head `sign_with` signs: the policy's fields, and the hash of its items. -/
def headOver (p : Policy) (items : List Item) : PolicyHead where
  format := POLICY_V5
  fabric := p.fabric
  version := p.version
  issued := p.issued
  notAfter := p.notAfter
  directories := p.directories
  freshSecs := p.settings.freshSecs
  itemsHash := ItemsHash.of items

/-- `Policy::sign_with`. -/
def signWith (p : Policy) (root : NodeIdentity) (previous : Option SignedPolicy) :
    Result SignedPolicy := do
  ensure (nodeId root = p.fabric) .fabricMismatch
  p.validate
  let items ← p.items root previous
  let head ← (p.headOver items).sign root
  return { head, items }

/-- `Policy::sign`. -/
def sign (p : Policy) (root : NodeIdentity) : Result SignedPolicy := p.signWith root none

/-- `Policy::sign_after`: `sign`, keeping the entries the edit didn't change. -/
def signAfter (p : Policy) (root : NodeIdentity) (previous : SignedPolicy) : Result SignedPolicy :=
  p.signWith root (some previous)

end Policy

namespace SignedPolicy

/-- `SignedPolicy::to_policy`. -/
def toPolicy (s : SignedPolicy) : Result Policy := Policy.fromItems s.head.head s.items

/-- Whether the policy's items ban `node` or the person `principal` is. -/
def bannedIn (s : SignedPolicy) (node : NodeId) (principal : Option Principal) : Bool :=
  s.items.any fun
    | .ban key => key = node
    | .personBan key => principal.any fun p => key.matches p
    | _ => false

/-- The role definitions among the items, by name. -/
def rolesOf (s : SignedPolicy) : SortedMap RoleName (List Matcher) :=
  SortedMap.collect (s.items.filterMap fun
    | .role k b => some (k, b)
    | _ => none)

/-- `SignedPolicy::view_for`. -/
def viewFor (s : SignedPolicy) (node : NodeId) (principal : Option Principal)
    (query : Option String) : View :=
  if s.bannedIn node principal then { head := s.head, entries := [] }
  else
    let roles := s.rolesOf
    let admitted (allowed : List RoleName) : Bool :=
      allowed.any fun r => admits (roles.get? r) principal
    let query := query.map asciiLower
    { head := s.head
      entries := (s.entries.filter fun e =>
        query.all fun q => serviceMatches e.name e.service q).filter fun e =>
          admitted e.service.allow }

variable [Crypto]

/-- `SignedPolicy::check_items`: `verify`, checking the signatures of only `entries`. -/
def checkItems (s : SignedPolicy) (root : NodeId) (entries : List SignedEntry) : Result Unit := do
  s.head.verify root
  let policy ← s.toPolicy
  ensure (ItemsHash.of s.items = s.head.head.itemsHash) .itemsMismatch
  ensure (policy.settings.freshSecs = s.head.head.freshSecs)
    (.invalidPolicy "the head's fresh_secs is not the settings' fresh_secs")
  forEach (fun e => checkEntryVersion e s.head) s.entries
  forEach (fun e => e.verify root) entries
  policy.validate

/-- `SignedPolicy::verify`: the one check for a whole signed policy. -/
def verify (s : SignedPolicy) (root : NodeId) : Result Unit := s.checkItems root s.entries

end SignedPolicy

end Wires
