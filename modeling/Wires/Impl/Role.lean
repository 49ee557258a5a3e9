import Wires.Framework.Text
import Wires.Impl.Identity

/-!
# Roles

`library/services/role.rs`, with the verified caller a role's matchers look
at (`Principal`, of `library/calls/idp.rs`). A role is a list of matchers, any
of which admits; a matcher's keys must all hold.
-/

namespace Wires

/-- The length of a string in UTF-8 bytes. -/
abbrev byteLen (s : String) : Nat := s.utf8ByteSize

/-! ## Role names -/

def MAX_ROLE_NAME : Nat := 64

/-- The rule for a role's name: 1–64 of `[A-Za-z0-9_.-]`. -/
def isRoleName (s : String) : Bool :=
  !s.isEmpty && byteLen s ≤ MAX_ROLE_NAME &&
    s.toList.all fun c => isAsciiAlphanumeric c || c = '_' || c = '.' || c = '-'

structure RoleName where
  name : String
  valid : isRoleName name = true
deriving DecidableEq

theorem RoleName.name_injective : Function.Injective RoleName.name := fun a b h => by
  cases a; cases b; simp_all

instance : LinearOrder RoleName := LinearOrder.lift' RoleName.name RoleName.name_injective

/-- `RoleName::new`. -/
def RoleName.new (s : String) : Result RoleName :=
  if h : isRoleName s = true then .ok ⟨s, h⟩ else .error .invalidRoleName

theorem RoleName.new_name (r : RoleName) : RoleName.new r.name = .ok r := dif_pos r.valid

/-- A value read through a fallible conversion from its text. -/
def ofJsonText {α : Type} (read : String → Result α) (j : Json) : Option α :=
  (ofJson j).bind fun s => (read s).toOption

instance : Serde RoleName where
  toJson r := toJson r.name
  ofJson := ofJsonText RoleName.new

theorem reads_roleName (r : RoleName) : Reads r := fun σ hσ => by
  show ofJsonText RoleName.new _ = _
  rw [ofJsonText, show (toJson r) = toJson r.name from rfl, reads_string r.name σ hσ,
    Option.bind_some, RoleName.new_name]
  rfl

/-! ## Email patterns -/

/-- How an `email` key matches the verified email. -/
inductive EmailPattern where
  | exact (email : String)
  | domain (domain : String)
deriving DecidableEq

namespace EmailPattern

/-- Whether `email` matches. -/
def «matches» (p : EmailPattern) (email : String) : Bool :=
  match p with
  | .exact want => eqIgnoreCase email want
  | .domain dom =>
    match rsplitOnce '@' email.toList with
    | some (loc, d) => !loc.isEmpty && eqIgnoreCase (String.ofList d) dom
    | none => false

/-- `EmailPattern::from_str`: an address, or `*@domain`. -/
def parse (s : String) : Result EmailPattern :=
  match s.toList with
  | '*' :: '@' :: dom =>
    if dom = [] ∨ '*' ∈ dom ∨ '@' ∈ dom then .error .invalidEmailPattern
    else .ok (.domain (asciiLower (String.ofList dom)))
  | cs =>
    if '*' ∈ cs then .error .invalidEmailPattern
    else
      match splitOnce '@' cs with
      | some (loc, dom) =>
        if loc ≠ [] ∧ dom ≠ [] ∧ '@' ∉ dom then .ok (.exact (asciiLower s))
        else .error .invalidEmailPattern
      | none => .error .invalidEmailPattern

/-- `EmailPattern`'s `Display`. -/
def display : EmailPattern → String
  | .exact e => e
  | .domain d => "*@" ++ d

/-- The pattern is a result of parsing, as every decoded one is. -/
def Parsed (p : EmailPattern) : Prop := ∃ s, parse s = .ok p

instance : Serde EmailPattern where
  toJson p := toJson p.display
  ofJson := ofJsonText parse

end EmailPattern

/-! ## Matchers -/

/-- One entry of a role: every key present must hold. -/
structure Matcher where
  issuer : String
  email : Option EmailPattern
  org : Option String
  group : Option String
deriving DecidableEq

/-- Who a verified ID token says the caller is. -/
structure Principal where
  issuer : String
  subject : String
  email : Option String
  org : Option String
  groups : List String
  notAfter : Int64
deriving DecidableEq

/-- `Principal::name`: the verified email, else the subject at the issuer. -/
def Principal.name (p : Principal) : String :=
  match p.email with
  | some email => email
  | none => p.subject ++ " at " ++ p.issuer

namespace Matcher

/-- `Matcher::new`: anyone the issuer verified. -/
def new (issuer : String) : Matcher := ⟨issuer, none, none, none⟩

/-- Whether `p` satisfies every key. -/
def «matches» (m : Matcher) (p : Principal) : Bool :=
  p.issuer = m.issuer
    && m.email.all (fun pat => p.email.any fun e => pat.matches e)
    && m.org.all (fun org => p.org.any fun have_ => eqIgnoreCase have_ org)
    && m.group.all (fun g => p.groups.contains g)

/-- The matcher's email pattern is a result of parsing. -/
def Parsed (m : Matcher) : Prop := ∀ p ∈ m.email, p.Parsed

instance : Serde Matcher where
  toJson m := .obj (("issuer", toJson m.issuer) ::
    (optMember "email" m.email ++ optMember "org" m.org ++ optMember "group" m.group))
  ofJson j := do
    let f ← j.fields ["issuer", "email", "org", "group"]
    return {
      issuer := ← field f "issuer"
      email := ← optField f "email"
      org := ← optField f "org"
      group := ← optField f "group" }

end Matcher

end Wires
