import Wires.Framework.Signing
import Wires.Impl.IdToken

/-!
# Which tokens verify

`verify_claim_exact`: `verifyClaim` accepts the tokens that are `Valid`, whose
spec says what the token, the key and the clock have to do with one another and
nothing of the order of checks; and one token is accepted for one node. Times
are compared as integers there, so no check of the code's can overflow.
-/

namespace Wires

/-! ## Segments -/

/-- The bytes are a JSON text of the value. -/
def JsonOf (bytes : List UInt8) (j : Json) : Prop :=
  ∃ cs, utf8Decode bytes = some cs ∧ Json.parse cs = some j

theorem decodeJson_eq_ok {α : Type} {read : List UInt8 → Option α} {seg : List Char} {what : String}
    {a : α} : decodeJson read seg what = .ok a ↔
      ∃ bytes, seg = Base64.encode bytes ∧ read bytes = some a := by
  simp only [decodeJson, bind_eq_ok, orError_eq_ok]
  constructor
  · rintro ⟨bytes, hb, ha⟩
    exact ⟨bytes, (Base64.encode_of_decode hb).symm, ha⟩
  · rintro ⟨bytes, rfl, ha⟩
    exact ⟨bytes, Base64.decode_encode bytes, ha⟩

theorem dot_notMem_encode (bs : List UInt8) : '.' ∉ Base64.encode bs :=
  Base64.notMem_of_decode (Base64.decode_encode bs) (by decide)

/-- Three parts that are base64, between dots. -/
theorem splitOn_dots {h p sig : List UInt8} :
    (Base64.encode h ++ '.' :: (Base64.encode p ++ '.' :: Base64.encode sig)).splitOn '.' =
      [Base64.encode h, Base64.encode p, Base64.encode sig] := by
  rw [List.splitOn_append_cons_self_of_not_mem (dot_notMem_encode h),
    List.splitOn_append_cons_self_of_not_mem (dot_notMem_encode p),
    List.splitOn_eq_singleton (dot_notMem_encode sig)]

theorem eq_of_splitOn {cs h p sig : List Char} (hs : cs.splitOn '.' = [h, p, sig]) :
    cs = h ++ '.' :: (p ++ '.' :: sig) := by
  have hjoined : ['.'].intercalate (cs.splitOn '.') = cs := List.intercalate_splitOn '.'
  rw [hs] at hjoined
  simpa using hjoined.symm

/-! ## Algorithms -/

/-- The algorithm a header's name is for. -/
theorem Alg.ofName_eq_ok {name : String} {alg : Alg} :
    Alg.ofName name = .ok alg ↔ name = alg.name := by
  unfold ofName
  split
  · cases alg <;> simp [Alg.name]
  · cases alg <;> simp [Alg.name]
  · rename_i hrs hes
    constructor
    · nofun
    · intro hn
      cases alg with
      | rs256 => exact absurd hn hrs
      | es256 => exact absurd hn hes

section

variable [Jose]

theorem Claims.read_eq_some {bytes : List UInt8} {p : Claims} :
    Claims.read bytes = some p ↔ ∃ j, JsonOf bytes j ∧ Claims.ofJson j = some p := by
  simp only [Claims.read, Option.bind_eq_some_iff]
  constructor
  · rintro ⟨cs, hcs, j, hj, hp⟩
    exact ⟨j, ⟨cs, hcs, hj⟩, hp⟩
  · rintro ⟨j, ⟨cs, hcs, hj⟩, hp⟩
    exact ⟨cs, hcs, j, hj, hp⟩

/-! ## Signatures -/

/-- The signature is one of the key's, for this algorithm. -/
def Alg.Verifies (alg : Alg) (k : Jwk) (msg sig : List UInt8) : Prop :=
  match alg with
  | .rs256 => ∃ n e, (k.n.bind fun t => Base64.decode t.toList) = some n ∧
    (k.e.bind fun t => Base64.decode t.toList) = some e ∧
    Jose.rsaVerify (stripLeadingZeros n) (stripLeadingZeros e) msg sig = true
  | .es256 => ∃ x y, (k.x.bind fun t => Base64.decode t.toList) = some x ∧
    (k.y.bind fun t => Base64.decode t.toList) = some y ∧ x.length = 32 ∧ y.length = 32 ∧
    Jose.p256Verify (0x04 :: x ++ y) msg sig = true

theorem verifyWith_eq_ok {alg : Alg} {k : Jwk} {msg sig : List UInt8} :
    verifyWith alg k msg sig = .ok true ↔ alg.Verifies k msg sig := by
  cases alg with
  | rs256 => simp [verifyWith, Alg.Verifies, jwkField]
  | es256 => simp [verifyWith, Alg.Verifies, jwkField, and_assoc]

/-- The key the header selects is one that fits and verifies the signature. -/
def Jws.SignedBy (jws : Jws) (k : Jwk) : Prop :=
  (∀ kid, jws.header.kid = some kid → k.kid = some kid) ∧ jws.alg.fits k = true ∧
    jws.alg.Verifies k (utf8 jws.signingInput) jws.signature

theorem Jws.verifySignature_eq_ok {jws : Jws} {jwks : Jwks} {u : Unit} :
    jws.verifySignature jwks = .ok u ↔ ∃ k ∈ jwks.keys, jws.SignedBy k := by
  have hver : ∀ k, (verifyWith jws.alg k (utf8 jws.signingInput) jws.signature).toOption.getD false =
      true ↔ jws.alg.Verifies k (utf8 jws.signingInput) jws.signature := by
    intro k
    rw [← verifyWith_eq_ok]
    cases verifyWith jws.alg k (utf8 jws.signingInput) jws.signature <;> simp [Except.toOption]
  simp only [verifySignature, bind_eq_ok, ensure_eq_ok, exists_const, List.any_eq_true,
    List.mem_filter, Option.all_eq_true, decide_eq_true_eq, hver]
  constructor
  · rintro ⟨-, k, ⟨⟨hk, hkid⟩, hfits⟩, hv⟩
    exact ⟨k, hk, hkid, hfits, hv⟩
  · rintro ⟨k, hk, hkid, hfits, hv⟩
    refine ⟨?_, k, ⟨⟨hk, hkid⟩, hfits⟩, hv⟩
    apply List.ne_nil_of_mem
    exact List.mem_filter.mpr ⟨List.mem_filter.mpr ⟨hk, by simpa [Option.all_eq_true] using hkid⟩, hfits⟩

/-! ## Tokens -/

/-- A token is the compact form of a JWS: its header, its payload and its signature in base64,
between dots. -/
structure Jws.Reads (token : IdToken) (jws : Jws) : Prop where
  segments : ∃ h p, token.toList =
      Base64.encode h ++ '.' :: (Base64.encode p ++ '.' :: Base64.encode jws.signature) ∧
    jws.signingInput = Base64.encode h ++ '.' :: Base64.encode p ∧
    Header.read h = some jws.header ∧
    ∃ pj, JsonOf p pj ∧ Claims.ofJson pj = some jws.payload
  alg : jws.header.alg = jws.alg.name
  crit : jws.header.crit = none

theorem Jws.parse_eq_ok {token : IdToken} {jws : Jws} :
    Jws.parse token = .ok jws ↔ Jws.Reads token jws := by
  constructor
  · intro hp
    unfold Jws.parse at hp
    split at hp
    · rename_i h p sig hs
      simp only [bind_eq_ok, decodeJson_eq_ok, ensure_eq_ok, orError_eq_ok, pure_eq_ok,
        Option.isNone_iff_eq_none, exists_const, Alg.ofName_eq_ok] at hp
      obtain ⟨header, ⟨hb, rfl, hheader⟩, hcrit, alg, halg, payload, ⟨pb, rfl, hpayload⟩, signature,
        hsig, rfl⟩ := hp
      refine ⟨⟨hb, pb, ?_, rfl, hheader, Claims.read_eq_some.mp hpayload⟩, halg, hcrit⟩
      rw [Base64.encode_of_decode hsig]
      exact eq_of_splitOn hs
    · cases hp
  · rintro ⟨⟨h, p, htok, hin, hheader, hpayload⟩, halg, hcrit⟩
    rw [Jws.parse, htok, splitOn_dots]
    simp only [bind_eq_ok, decodeJson_eq_ok, ensure_eq_ok, orError_eq_ok, pure_eq_ok,
      Option.isNone_iff_eq_none, exists_const, Alg.ofName_eq_ok]
    exact ⟨jws.header, ⟨h, rfl, hheader⟩, hcrit, jws.alg, halg, jws.payload,
      ⟨p, rfl, Claims.read_eq_some.mpr hpayload⟩, jws.signature, Base64.decode_encode _, by rw [← hin]⟩

/-! ## Claims -/

/-- A number's time: an integer's own, or the nearest of an `i64`; a float's as it is cast. -/
def TimeOf (v : Json) (t : Int64) : Prop :=
  (∃ i, v = .num i ∧ t.toInt = max (-2 ^ 63) (min i (2 ^ 63 - 1))) ∨
    ∃ f, v = .float f ∧ Jose.floatAsI64 f = some t

theorem asI64_eq_some {v : Json} {t : Int64} : asI64 v = some t ↔ TimeOf v t := by
  cases v with
  | num i =>
    simp only [asI64, TimeOf, Option.some.injEq, Json.num.injEq, exists_eq_left', reduceCtorEq,
      false_and, exists_false, or_false]
    rw [← Int64.toInt_inj, toInt_ofIntClamp, eq_comm]
  | float f => simp [asI64, TimeOf]
  | _ => simp [asI64, TimeOf]

omit [Jose] in
theorem asStr_eq_some {v : Json} {s : String} : asStr v = some s ↔ v = .str s.toList := by
  cases v with
  | str cs =>
    simp only [asStr, Option.some.injEq, Json.str.injEq]
    constructor
    · rintro rfl
      rw [String.toList_ofList]
    · rintro rfl
      rw [String.ofList_toList]
  | _ => simp [asStr]

omit [Jose] in
theorem mapM_asStr_eq_some {items : List Json} {xs : List String} :
    items.mapM asStr = some xs ↔ items = xs.map fun x => .str x.toList := by
  induction items generalizing xs with
  | nil => cases xs <;> simp
  | cons v items ih =>
    simp only [List.mapM_cons, Option.bind_eq_bind, Option.bind_eq_some_iff, asStr_eq_some, ih,
      Option.pure_def, Option.some.injEq]
    constructor
    · rintro ⟨x, rfl, ys, rfl, rfl⟩
      rfl
    · intro h
      cases xs with
      | nil => cases h
      | cons x xs =>
        obtain ⟨hv, hitems⟩ := List.cons.inj h
        exact ⟨x, hv, xs, hitems, rfl⟩

section

variable {p : Claims} {name : String}

omit [Jose] in
theorem strClaim_eq_ok {s : String} : strClaim p name = .ok s ↔ p.get name = some (.str s.toList) := by
  simp [strClaim, Option.bind_eq_some_iff, asStr_eq_some]

theorem intClaim_eq_some {t : Int64} :
    intClaim p name = .ok (some t) ↔ ∃ v, p.get name = some v ∧ TimeOf v t := by
  unfold intClaim
  split
  · rename_i h
    simp [h]
  · rename_i v h
    simp [h, asI64_eq_some]

theorem intClaim_eq_none : intClaim p name = .ok none ↔ p.get name = none := by
  unfold intClaim
  split
  · rename_i h
    simp [h]
  · rename_i v h
    simp [h]

omit [Jose] in
/-- The `aud` claim is a string, or an array of strings. -/
theorem audClaim_eq_ok {aud : List String} : audClaim p = .ok aud ↔
    (∃ a, p.get "aud" = some (.str a.toList) ∧ aud = [a]) ∨
      p.get "aud" = some (.arr (aud.map fun a => .str a.toList)) := by
  unfold audClaim
  split
  · rename_i cs h
    simp only [h, Option.some.injEq, Json.str.injEq, Except.ok.injEq, reduceCtorEq, or_false]
    constructor
    · rintro rfl
      exact ⟨_, String.toList_ofList.symm, rfl⟩
    · rintro ⟨a, rfl, rfl⟩
      rw [String.ofList_toList]
  · rename_i items h
    simp [h, mapM_asStr_eq_some]
  · rename_i hstr harr
    constructor
    · nofun
    · rintro (⟨a, ha, -⟩ | ha)
      · exact absurd ha (hstr _)
      · exact absurd ha (harr _)

omit [Jose] in
theorem emailVerified_iff : emailVerified p = true ↔
    p.get "email_verified" = some (.bool true) ∨
      p.get "email_verified" = some (.str "true".toList) := by
  unfold emailVerified
  split
  · rename_i b h
    simp [h]
  · rename_i cs h
    rw [decide_eq_true_eq, h]
    constructor
    · intro hcs
      rw [← hcs, String.toList_ofList]
      exact .inr rfl
    · intro hcs
      rcases hcs with hcs | hcs
      · cases hcs
      · rw [Json.str.inj (Option.some.inj hcs), String.ofList_toList]
  · rename_i hb hs
    constructor
    · nofun
    · intro h
      rcases h with h | h
      · exact absurd h (hb _)
      · exact absurd h (hs _)

end

/-! ## Time -/

omit [Jose] in
/-- The code's comparison is that of the integers: a sum that does not fit is past every time. -/
theorem not_gt_satAdd_skew {a b : Int64} :
    ¬a > satAdd b CLOCK_SKEW_SECS ↔ a.toInt ≤ b.toInt + 60 := by
  have hskew : CLOCK_SKEW_SECS.toInt = 60 := by decide
  have ha := a.toInt_lt
  have hb := b.le_toInt
  rw [gt_iff_lt, Int64.lt_iff_toInt_lt, toInt_satAdd, hskew]
  omega

/-! ## The verdict -/

/-- What the token says to the verifier: which key signed it, who issued it to whom, for which
node and when. -/
structure Jws.Valid (node : NodeId) (issuer : Issuer) (jwks : Jwks) (audiences : List Audience)
    (now : Int64) (jws : Jws) (exp : Int64) : Prop where
  key : ∃ k ∈ jwks.keys, jws.SignedBy k
  iss : jws.payload.get "iss" = some (.str issuer.toList)
  aud : ∃ a ∈ audiences, jws.payload.get "aud" = some (.str a.toList) ∨ ∃ aud : List String,
    jws.payload.get "aud" = some (.arr (aud.map fun a => .str a.toList)) ∧ a ∈ aud
  expires : ∃ v, jws.payload.get "exp" = some v ∧ TimeOf v exp
  unexpired : now.toInt ≤ exp.toInt + 60
  iat : jws.payload.get "iat" = none ∨
    ∃ v iat, jws.payload.get "iat" = some v ∧ TimeOf v iat ∧ iat.toInt ≤ now.toInt + 60
  nonce : jws.payload.get "nonce" = some (.str (OidcNonce.forNode node).toList)

/-- The person a token's claims name. -/
structure Claims.Names (p : Claims) (issuer : Issuer) (who : Principal) : Prop where
  issued : who.issuer = issuer
  subject : p.get "sub" = some (.str who.subject.toList)
  /-- Only an email that the token marks verified is the person's. -/
  email : ∀ email, who.email = some email ↔ (p.get "email_verified" = some (.bool true) ∨
    p.get "email_verified" = some (.str "true".toList)) ∧ p.get "email" = some (.str email.toList)
  /-- Only one issuer's `hd` is an organization. -/
  org : ∀ org, who.org = some org ↔ issuer = GOOGLE_ISSUER ∧ p.get "hd" = some (.str org.toList)
  groups : who.groups = groupsClaim p

omit [Jose] in
/-- The principal that the code makes is the one the claims name. -/
theorem Claims.names_iff {p : Claims} {issuer : Issuer} {subject : String} {exp : Int64}
    {who : Principal} (hsub : p.get "sub" = some (.str subject.toList)) :
    ({ issuer, subject
       email := if emailVerified p then (p.get "email").bind asStr else none
       org := if issuer = GOOGLE_ISSUER then (p.get "hd").bind asStr else none
       groups := groupsClaim p
       notAfter := exp } : Principal) = who ↔ p.Names issuer who ∧ who.notAfter = exp := by
  have hemail : ∀ email, (if emailVerified p then (p.get "email").bind asStr else none) = some email ↔
      (p.get "email_verified" = some (.bool true) ∨
        p.get "email_verified" = some (.str "true".toList)) ∧
      p.get "email" = some (.str email.toList) := fun email => by
    simp [Option.ite_none_right_eq_some, emailVerified_iff, Option.bind_eq_some_iff, asStr_eq_some]
  have horg : ∀ org, (if issuer = GOOGLE_ISSUER then (p.get "hd").bind asStr else none) = some org ↔
      issuer = GOOGLE_ISSUER ∧ p.get "hd" = some (.str org.toList) := fun org => by
    simp [Option.ite_none_right_eq_some, Option.bind_eq_some_iff, asStr_eq_some]
  constructor
  · rintro rfl
    exact ⟨⟨rfl, hsub, hemail, horg, rfl⟩, rfl⟩
  · obtain ⟨i, s, e, o, g, n⟩ := who
    rintro ⟨⟨rfl, hs, he, ho, rfl⟩, rfl⟩
    have hsubject : subject = s := by
      rw [hsub] at hs
      exact String.toList_inj.mp (Json.str.inj (Option.some.inj hs))
    rw [hsubject, Option.ext fun a => (hemail a).trans (he a).symm,
      Option.ext fun a => (horg a).trans (ho a).symm]

theorem verifyClaim_eq_ok {claim : IdentityClaim} {issuer : Issuer} {jwks : Jwks}
    {audiences : List Audience} {now : Int64} {who : Principal} :
    verifyClaim claim issuer jwks audiences now = .ok who ↔ ∃ jws, Jws.Reads claim.idToken jws ∧
      jws.Valid claim.node issuer jwks audiences now who.notAfter ∧
      jws.payload.Names issuer who := by
  simp only [verifyClaim, bind_eq_ok, Jws.parse_eq_ok, Jws.verifySignature_eq_ok, ensure_eq_ok,
    orError_eq_ok, strClaim_eq_ok, forEach_eq_ok, pure_eq_ok, not_gt_satAdd_skew, exists_const]
  constructor
  · rintro ⟨jws, hreads, hkey, iss, hiss, rfl, aud, haud, hany, o, hexp, exp, rfl, hunexp, oiat,
      hoiat, hiat, nonce, hnonce, rfl, subject, hsub, hwho⟩
    obtain ⟨hnames, rfl⟩ := (Claims.names_iff hsub).mp hwho
    refine ⟨jws, hreads, ⟨hkey, hiss, ?_, intClaim_eq_some.mp hexp, hunexp, ?_, hnonce⟩, hnames⟩
    · simp only [List.any_eq_true, List.contains_iff_mem] at hany
      obtain ⟨a, ha, hacc⟩ := hany
      refine ⟨a, hacc, ?_⟩
      rcases audClaim_eq_ok.mp haud with ⟨b, hb, rfl⟩ | harr
      · obtain rfl := List.mem_singleton.mp ha
        exact .inl hb
      · exact .inr ⟨aud, harr, ha⟩
    · cases oiat with
      | none => exact .inl (intClaim_eq_none.mp hoiat)
      | some iat =>
        obtain ⟨v, hv, ht⟩ := intClaim_eq_some.mp hoiat
        exact .inr ⟨v, iat, hv, ht, hiat iat (by simp)⟩
  · rintro ⟨jws, hreads, ⟨hkey, hiss, ⟨a, hacc, haud⟩, hexp, hunexp, hiat, hnonce⟩, hnames⟩
    have haud : ∃ aud, audClaim jws.payload = .ok aud ∧ a ∈ aud := by
      rcases haud with haud | ⟨aud, haud, ha⟩
      · exact ⟨[a], audClaim_eq_ok.mpr (.inl ⟨a, haud, rfl⟩), List.mem_singleton_self a⟩
      · exact ⟨aud, audClaim_eq_ok.mpr (.inr haud), ha⟩
    have hiat : ∃ o, intClaim jws.payload "iat" = .ok o ∧
        ∀ iat ∈ o.toList, iat.toInt ≤ now.toInt + 60 := by
      rcases hiat with hnone | ⟨v, iat, hv, ht, hle⟩
      · exact ⟨none, intClaim_eq_none.mpr hnone, by simp⟩
      · exact ⟨some iat, intClaim_eq_some.mpr ⟨v, hv, ht⟩, by simpa using hle⟩
    obtain ⟨aud, haud, ha⟩ := haud
    obtain ⟨o, ho, hle⟩ := hiat
    refine ⟨jws, hreads, hkey, issuer, hiss, rfl, aud, haud, ?_, some who.notAfter,
      intClaim_eq_some.mpr hexp, who.notAfter, rfl, hunexp, o, ho, hle, _, hnonce, rfl, who.subject,
      hnames.subject, (Claims.names_iff hnames.subject).mpr ⟨hnames, rfl⟩⟩
    exact List.any_eq_true.mpr ⟨a, ha, List.contains_iff_mem.mpr hacc⟩

/-- A token reads as one JWS. -/
theorem Jws.Reads.unique {token : IdToken} {a b : Jws} (ha : Jws.Reads token a)
    (hb : Jws.Reads token b) : a = b :=
  Except.ok.inj ((Jws.parse_eq_ok.mpr ha).symm.trans (Jws.parse_eq_ok.mpr hb))

theorem OidcNonce.deriveKey_eq {a b : NodeId} (h : OidcNonce.forNode a = OidcNonce.forNode b) :
    Jose.deriveKey OIDC_NONCE_CONTEXT a.toList = Jose.deriveKey OIDC_NONCE_CONTEXT b.toList :=
  Bytes.ext (Base64.encode_injective (String.ofList_injective h))

/-- A verdict is that of the token, the keys and the clock, and a token is for one node. -/
theorem verify_claim_exact (claim : IdentityClaim) (issuer : Issuer) (jwks : Jwks)
    (audiences : List Audience) (now : Int64) (who : Principal) :
    (verifyClaim claim issuer jwks audiences now = .ok who ↔ ∃ jws, Jws.Reads claim.idToken jws ∧
      jws.Valid claim.node issuer jwks audiences now who.notAfter ∧
      jws.payload.Names issuer who) ∧
    ∀ (node : NodeId) (issuer' : Issuer) (jwks' : Jwks) (audiences' : List Audience) (now' : Int64)
      (who' : Principal),
      (Jose.deriveKey OIDC_NONCE_CONTEXT claim.node.toList =
        Jose.deriveKey OIDC_NONCE_CONTEXT node.toList → claim.node = node) →
      verifyClaim claim issuer jwks audiences now = .ok who →
      verifyClaim ⟨node, claim.idToken⟩ issuer' jwks' audiences' now' = .ok who' →
      claim.node = node := by
  refine ⟨verifyClaim_eq_ok, fun node issuer' jwks' audiences' now' who' hcoll h h' => ?_⟩
  obtain ⟨jws, hreads, hvalid, -⟩ := verifyClaim_eq_ok.mp h
  obtain ⟨jws', hreads', hvalid', -⟩ := verifyClaim_eq_ok.mp h'
  obtain rfl := hreads.unique hreads'
  apply hcoll
  apply OidcNonce.deriveKey_eq
  have hnonce := hvalid.nonce.symm.trans hvalid'.nonce
  exact String.toList_inj.mp (Json.str.inj (Option.some.inj hnonce))

end

/-! ## A token that names no one -/

section Sample

/-- A P-256 that checks a checksum; there is no RSA and no float. -/
@[reducible] def Jose.plain : Jose where
  rsaVerify _ _ _ _ := false
  p256Verify point msg sig := sig = (checksumTag (checksum point) msg).toList
  deriveKey context bytes := checksum (utf8 context.toList ++ bytes)
  floatAsI64 _ := none
  inRange _ := true

attribute [local instance] Jose.plain

def sampleHeader : Json := .obj [("alg", toJson "ES256")]

/-- Every claim the verifier compares, and no `sub`. -/
def sampleClaims : Claims :=
  [("iss", toJson "idp"), ("aud", toJson "cli"), ("exp", .num 100),
    ("nonce", toJson (OidcNonce.forNode (Bytes.fill 32 4)))]

/-- The key at the point (7…, 8…). -/
def sampleJwk : Jwk :=
  { kty := "EC", kid := none, alg := none, keyUse := none, n := none, e := none, crv := some "P-256"
    x := some (String.ofList (Base64.encode (Bytes.fill 32 7).toList))
    y := some (String.ofList (Base64.encode (Bytes.fill 32 8).toList)) }

/-- Claims, signed with that key. -/
def sampleJws (payload : Claims) : Jws :=
  let input := Base64.encode (utf8 sampleHeader.compact) ++
    '.' :: Base64.encode (utf8 (Json.obj payload).compact)
  { header := ⟨"ES256", none, none⟩
    alg := .es256
    payload
    signingInput := input
    signature := (checksumTag (checksum (0x04 :: (Bytes.fill 32 7).toList ++ (Bytes.fill 32 8).toList))
      (utf8 input)).toList }

def sampleToken (payload : Claims) : IdToken :=
  String.ofList ((sampleJws payload).signingInput ++ '.' :: Base64.encode (sampleJws payload).signature)

theorem jsonOf_compact (j : Json) : JsonOf (utf8 j.compact) j :=
  ⟨j.compact, utf8Decode_utf8 _, Json.parse_compact j⟩

theorem read_sampleHeader : Header.read (utf8 sampleHeader.compact) = some ⟨"ES256", none, none⟩ := by
  have hread : (Header.read (utf8 sampleHeader.compact)).map
      (fun h => (h.alg, h.kid, h.crit.isNone)) = some ("ES256", none, true) := by decide +kernel
  obtain ⟨⟨alg, kid, crit⟩, hheader, hfields⟩ := Option.map_eq_some_iff.mp hread
  simp only [Prod.mk.injEq, Option.isNone_iff_eq_none] at hfields
  obtain ⟨rfl, rfl, rfl⟩ := hfields
  exact hheader

theorem reads_sampleToken {payload : Claims} (h : Claims.ofJson (.obj payload) = some payload) :
    Jws.Reads (sampleToken payload) (sampleJws payload) where
  segments := by
    refine ⟨_, _, ?_, rfl, read_sampleHeader, _, jsonOf_compact (.obj payload), h⟩
    rw [sampleToken, String.toList_ofList]
    simp [sampleJws]
  alg := rfl
  crit := rfl

theorem signedBy_sampleJwk (payload : Claims) : (sampleJws payload).SignedBy sampleJwk := by
  refine ⟨nofun, rfl, (Bytes.fill 32 7).toList, (Bytes.fill 32 8).toList, ?_, ?_, rfl, rfl, ?_⟩
  · simp [sampleJwk, Base64.decode_encode]
  · simp [sampleJwk, Base64.decode_encode]
  · exact decide_eq_true rfl

/-- What is signed with that key is valid while it is in time, if it has the other claims. -/
theorem valid_signed {payload : Claims} {now exp : Int64}
    (hm : ∀ name ∈ ["iss", "aud", "iat", "nonce"], payload.get name = sampleClaims.get name)
    (he : payload.get "exp" = some (.num exp.toInt)) (hn : now.toInt ≤ exp.toInt + 60) :
    (sampleJws payload).Valid (Bytes.fill 32 4) "idp" ⟨[sampleJwk]⟩ ["cli"] now exp where
  key := ⟨sampleJwk, List.mem_singleton_self _, signedBy_sampleJwk _⟩
  iss := hm "iss" (by simp)
  aud := ⟨"cli", List.mem_singleton_self _, .inl (hm "aud" (by simp))⟩
  expires := by
    have hlow := exp.le_toInt
    have hhigh := exp.toInt_lt
    exact ⟨.num exp.toInt, he, .inl ⟨exp.toInt, rfl, by omega⟩⟩
  unexpired := hn
  iat := .inl (hm "iat" (by simp))
  nonce := hm "nonce" (by simp)

theorem valid_sampleJws (more : Claims) (hm : ∀ name ∈ ["iss", "aud", "exp", "iat", "nonce"],
    (sampleClaims ++ more).get name = sampleClaims.get name) :
    (sampleJws (sampleClaims ++ more)).Valid (Bytes.fill 32 4) "idp" ⟨[sampleJwk]⟩ ["cli"] 100 100 :=
  valid_signed (fun name h => hm name (by simp at h ⊢; tauto)) (hm "exp" (by simp)) (by decide)

/-- A token can say all of it, and be refused for its lack of a `sub`. -/
theorem not_accepted_without_sub : ∃ (token : IdToken) (jws : Jws) (node : NodeId) (issuer : Issuer)
    (jwks : Jwks) (audiences : List Audience) (now exp : Int64), Jws.Reads token jws ∧
      jws.Valid node issuer jwks audiences now exp ∧
      verifyClaim ⟨node, token⟩ issuer jwks audiences now = .error (.missingClaim "sub") := by
  have hreads : Jws.Reads (sampleToken sampleClaims) (sampleJws sampleClaims) := reads_sampleToken rfl
  have hvalid := valid_sampleJws [] (by simp)
  rw [List.append_nil] at hvalid
  refine ⟨_, _, _, _, _, _, _, _, hreads, hvalid, ?_⟩
  have hparse := Jws.parse_eq_ok.mpr hreads
  have hkey : (sampleJws sampleClaims).verifySignature ⟨[sampleJwk]⟩ = .ok () :=
    Jws.verifySignature_eq_ok.mpr hvalid.key
  have hiss : strClaim (sampleJws sampleClaims).payload "iss" = .ok "idp" := strClaim_eq_ok.mpr rfl
  have haud : audClaim (sampleJws sampleClaims).payload = .ok ["cli"] := rfl
  have hexp : intClaim (sampleJws sampleClaims).payload "exp" = .ok (some 100) := rfl
  have hiat : intClaim (sampleJws sampleClaims).payload "iat" = .ok none := rfl
  have hnonce : strClaim (sampleJws sampleClaims).payload "nonce" = .ok (OidcNonce.forNode (Bytes.fill 32 4)) :=
    strClaim_eq_ok.mpr rfl
  have hsub : strClaim (sampleJws sampleClaims).payload "sub" = .error (.missingClaim "sub") := rfl
  have hskew : ¬(100 : Int64) > satAdd 100 CLOCK_SKEW_SECS := by decide
  simp only [verifyClaim, hparse, hkey, hiss, haud, hexp, hiat, hnonce, hsub, ok_bind, error_bind,
    orError_some, ensure_of hskew, ensure_of trivial]
  rfl

end Sample

end Wires
