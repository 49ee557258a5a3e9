import Wires.Framework.Sorted
import Wires.Impl.Entry
import Mathlib.Data.Prod.Lex

/-!
# Policy items

`library/services/item.rs`: the items a policy is a sorted list of, one for
each role, service, banned node, banned person and trusted issuer, and one for
the settings. An item is addressed by its `ItemKey`; the kinds sort in the
order they are declared in, then the keys of one kind in their own order.
-/

namespace Wires

/-- The exact `iss` string of an identity provider. -/
abbrev Issuer := String

/-- A client id an ID token may be issued to. -/
abbrev Audience := String

/-- A person, as a person ban names them. -/
structure Person where
  issuer : Issuer
  email : String
deriving DecidableEq

namespace Person

/-- The order of people: by issuer, then email. -/
def order (p : Person) : Lex (String × String) := toLex (p.issuer, p.email)

theorem order_injective : Function.Injective order := fun a b h => by
  cases a; cases b
  simpa [order, Prod.ext_iff] using h

instance : LinearOrder Person := LinearOrder.lift' order order_injective

/-- `Person::matches`: the same issuer, and a verified email equal ignoring case. -/
def «matches» (p : Person) (principal : Principal) : Bool :=
  principal.issuer = p.issuer && principal.email.any fun e => eqIgnoreCase e p.email

/-- `Person`'s `Display`. -/
def display (p : Person) : String := p.email ++ " (" ++ p.issuer ++ ")"

instance : Serde Person where
  toJson p := .obj [("issuer", toJson p.issuer), ("email", toJson p.email)]
  ofJson j := do
    let f ← j.fields ["issuer", "email"]
    return { issuer := ← field f "issuer", email := ← field f "email" }

end Person

/-- A trusted identity provider: the body of an `issuer` item. -/
structure IssuerConfig where
  clientId : Audience
  audiences : List Audience
deriving DecidableEq

instance : Serde IssuerConfig where
  toJson c := .obj [("client_id", toJson c.clientId), ("audiences", toJson c.audiences)]
  ofJson j := do
    let f ← j.fields ["client_id", "audiences"]
    return { clientId := ← field f "client_id", audiences := ← field f "audiences" }

/-- The network-wide settings. -/
structure Settings where
  beatSecs : UInt32
  freshSecs : UInt32
deriving DecidableEq

def DEFAULT_BEAT_SECS : UInt32 := 5 * 60

def DEFAULT_FRESH_SECS : UInt32 := 15 * 60

/-- `Settings::default`. -/
def Settings.default : Settings := ⟨DEFAULT_BEAT_SECS, DEFAULT_FRESH_SECS⟩

instance : Serde Settings where
  toJson s := .obj [("beat_secs", toJson s.beatSecs), ("fresh_secs", toJson s.freshSecs)]
  ofJson j := do
    let f ← j.fields ["beat_secs", "fresh_secs"]
    return { beatSecs := ← field f "beat_secs", freshSecs := ← field f "fresh_secs" }

/-! ## Keys -/

/-- Where an item sits in the policy. -/
inductive ItemKey where
  | role (name : RoleName)
  | service (name : ServiceName)
  | ban (node : NodeId)
  | personBan (person : Person)
  | issuer (issuer : Issuer)
  | settings
deriving DecidableEq

namespace ItemKey

/-- The place of a key's kind. -/
def kind : ItemKey → Nat
  | .role _ => 0
  | .service _ => 1
  | .ban _ => 2
  | .personBan _ => 3
  | .issuer _ => 4
  | .settings => 5

@[simp] theorem kind_role (r : RoleName) : (role r).kind = 0 := rfl
@[simp] theorem kind_service (s : ServiceName) : (service s).kind = 1 := rfl
@[simp] theorem kind_ban (n : NodeId) : (ban n).kind = 2 := rfl
@[simp] theorem kind_personBan (p : Person) : (personBan p).kind = 3 := rfl
@[simp] theorem kind_issuer (i : Issuer) : (issuer i).kind = 4 := rfl
@[simp] theorem kind_settings : settings.kind = 5 := rfl

/-- A node id key's part of the order. -/
def nodePart : ItemKey → List UInt8
  | .ban n => n.toList
  | _ => []

/-- The texts of a key's part of the order. -/
def textPart : ItemKey → Lex (String × String)
  | .role r => toLex (r.name, "")
  | .service s => toLex (s.name, "")
  | .personBan p => p.order
  | .issuer i => toLex (i, "")
  | _ => toLex ("", "")

/-- The order of keys: by kind, then by the key. -/
def order (k : ItemKey) : Lex (Nat × Lex (List UInt8 × Lex (String × String))) :=
  toLex (k.kind, toLex (k.nodePart, k.textPart))

theorem order_injective : Function.Injective order := fun a b h => by
  have h1 : a.kind = b.kind := congrArg Prod.fst (toLex_inj.mp h)
  have h2 : toLex (a.nodePart, a.textPart) = toLex (b.nodePart, b.textPart) :=
    congrArg Prod.snd (toLex_inj.mp h)
  obtain ⟨hn, ht⟩ := Prod.mk.inj (toLex_inj.mp h2)
  cases a <;> cases b <;> try (simp [kind] at h1; done)
  · simpa [textPart, ← RoleName.name_injective.eq_iff] using ht
  · simpa [textPart, ← ServiceName.name_injective.eq_iff] using ht
  · simpa [nodePart, ← Bytes.toList_injective.eq_iff] using hn
  · simpa [textPart, Person.order_injective.eq_iff] using ht
  · simpa [textPart] using ht
  · rfl

instance : LinearOrder ItemKey := LinearOrder.lift' order order_injective

theorem lt_iff {a b : ItemKey} : a < b ↔ a.kind < b.kind ∨ a.kind = b.kind ∧
    (a.nodePart < b.nodePart ∨ a.nodePart = b.nodePart ∧ a.textPart < b.textPart) := by
  show a.order < b.order ↔ _
  simp only [order, Prod.Lex.toLex_lt_toLex]

theorem lt_of_kind_lt {a b : ItemKey} (h : a.kind < b.kind) : a < b := lt_iff.mpr (.inl h)

@[simp] theorem role_lt_role {a b : RoleName} : role a < role b ↔ a < b := by
  rw [lt_iff]
  simp only [kind, nodePart, textPart, Prod.Lex.toLex_lt_toLex, lt_irrefl, and_false, or_false,
    false_or, true_and]
  rfl

@[simp] theorem service_lt_service {a b : ServiceName} : service a < service b ↔ a < b := by
  rw [lt_iff]
  simp only [kind, nodePart, textPart, Prod.Lex.toLex_lt_toLex, lt_irrefl, and_false, or_false,
    false_or, true_and]
  rfl

@[simp] theorem ban_lt_ban {a b : NodeId} : ban a < ban b ↔ a < b := by
  rw [lt_iff]
  simp only [kind, nodePart, textPart, lt_irrefl, and_false, or_false, false_or, true_and]
  rfl

@[simp] theorem personBan_lt_personBan {a b : Person} : personBan a < personBan b ↔ a < b := by
  rw [lt_iff]
  simp only [kind, nodePart, textPart, lt_irrefl, false_or, true_and]
  rfl

@[simp] theorem issuer_lt_issuer {a b : Issuer} : issuer a < issuer b ↔ a < b := by
  rw [lt_iff]
  simp only [kind, nodePart, textPart, Prod.Lex.toLex_lt_toLex, lt_irrefl, and_false, or_false,
    false_or, true_and]

/-- `ItemKey`'s `Display`. -/
def display : ItemKey → String
  | .role r => "role:" ++ r.name
  | .service s => "service:" ++ s.name
  | .ban n => "ban:" ++ n.hex
  | .personBan p => "person_ban:" ++ p.display
  | .issuer i => "issuer:" ++ i
  | .settings => "settings"

end ItemKey

/-! ## Items -/

/-- One item of the policy. -/
inductive Item where
  | role (key : RoleName) (body : List Matcher)
  | service (entry : SignedEntry)
  | ban (key : NodeId)
  | personBan (key : Person)
  | issuer (key : Issuer) (body : IssuerConfig)
  | settings (body : Settings)
deriving DecidableEq

namespace Item

/-- `Item::key`. -/
def key : Item → ItemKey
  | .role k _ => .role k
  | .service e => .service e.name
  | .ban k => .ban k
  | .personBan k => .personBan k
  | .issuer k _ => .issuer k
  | .settings _ => .settings

/-- An item of a kind, read from what stands beside its kind. -/
def ofKind (kind : String) (j : Json) : Option Item :=
  match kind with
  | "role" => do
    let f ← j.fields ["key", "body"]
    return .role (← field f "key") (← field f "body")
  | "service" => (ofJson j).map .service
  | "ban" => do
    let f ← j.fields ["key"]
    return .ban (← field f "key")
  | "person_ban" => do
    let f ← j.fields ["key"]
    return .personBan (← field f "key")
  | "issuer" => do
    let f ← j.fields ["key", "body"]
    return .issuer (← field f "key") (← field f "body")
  | "settings" => do
    let f ← j.fields ["body"]
    return .settings (← field f "body")
  | _ => none

/-- The name of an item's kind. -/
def kindName : Item → String
  | .role _ _ => "role"
  | .service _ => "service"
  | .ban _ => "ban"
  | .personBan _ => "person_ban"
  | .issuer _ _ => "issuer"
  | .settings _ => "settings"

/-- What stands beside an item's kind: its key and body, or its entry's fields. -/
def members : Item → List (String × Json)
  | .role k b => [("key", toJson k), ("body", toJson b)]
  | .service e => e.members
  | .ban k => [("key", toJson k)]
  | .personBan k => [("key", toJson k)]
  | .issuer k b => [("key", toJson k), ("body", toJson b)]
  | .settings b => [("body", toJson b)]

instance : Serde Item where
  toJson i := .obj (("kind", toJson i.kindName) :: i.members)
  ofJson j := (j.tagged "kind").bind fun p => ofKind (String.ofList p.1) p.2

/-- The email patterns of an item's matchers are results of parsing. -/
def Parsed : Item → Prop
  | .role _ body => ∀ m ∈ body, m.Parsed
  | _ => True

end Item

end Wires
