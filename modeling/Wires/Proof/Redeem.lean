import Wires.Proof.Clients
import Wires.Proof.OAuth
import Wires.Proof.Signing
import Wires.Proof.Trust

/-!
# Redeeming what was authorized

Every code the gateway holds is of an authorization that was asked for
(`Traced`), and stays held until it is presented, expires or makes room
(`held_or`). A request that presents it with the texts the authorization was
asked with is given a token exactly if these texts are the normal forms of the
URLs they name (`redeemed_iff`): what was parsed is compared as text.
-/

namespace Wires

namespace OAuth

section

variable [Web] [Origin] {gw : Gateway}

/-! ## What was asked for -/

/-- A URL's text that is its own normal form. -/
def IsNormal (text : String) : Prop := (Web.parse text).toOption.map Web.display = some text

/-- What is asked for, by a request that is accepted. -/
theorem of_authorization {q : Form} {client : Except String Client} {verifier : Except Anyhow String}
    {now : Int64} {c : Client} {a : Authorization}
    (h : authorization gw q client verifier now = .ok (c, a)) :
    client = .ok c ∧ a.clientId = c.id ∧ q.get? "code_challenge" = some a.codeChallenge ∧
      ∃ text, q.get? "redirect_uri" = some text ∧ Web.parse text = .ok a.redirectUri := by
  unfold authorization at h
  simp only [bind_eq_ok, orError_eq_ok, mapErr_eq_ok, ensure_eq_ok, exists_const, pure_eq_ok,
    Prod.mk.injEq] at h
  obtain ⟨-, -, c', hc, uri, huri, -, challenge, hchallenge, -, -, -, verifier, -, rfl, rfl⟩ := h
  obtain ⟨hparse, -⟩ := Option.filter_eq_some_iff.mp huri
  obtain ⟨text, htext, hok⟩ := Option.bind_eq_some_iff.mp hparse
  obtain ⟨hchallenge, -⟩ := Option.filter_eq_some_iff.mp hchallenge
  refine ⟨hc, rfl, hchallenge, text, htext, ?_⟩
  cases hresult : Web.parse text with
  | ok u =>
    rw [hresult] at hok
    rw [← Option.some.inj hok]
  | error e =>
    rw [hresult] at hok
    cases hok

omit [Origin] in
/-- A redirect URI's text is what it is compared with, exactly if it is normal. -/
theorem display_redirect_iff {text : String} {uri : Web.Url} (h : Web.parse text = .ok uri) :
    Web.display uri = text ↔ IsNormal text := by
  simp [IsNormal, h, Except.toOption]

/-- A client's id is the text it was looked up with, exactly if that is registered or normal. -/
theorem clientId_iff [UrlParts] [Hmac] {key : Hmac.Key} {fetched : Except Anyhow (List UInt8)}
    {text : String} {c : Client} (h : clientOf key fetched text = .ok c) :
    c.id = text ↔ (isMetadataUrl text = true → IsNormal text) := by
  unfold clientOf at h
  split_ifs at h with hurl
  · unfold metadataClient fetchableMetadataUrl at h
    simp only [bind_eq_ok, mapErr_eq_ok, ensure_eq_ok, exists_const, pure_eq_ok] at h
    obtain ⟨url, ⟨url', hparse, -, rfl⟩, body, -, hvalidate⟩ := h
    rw [(of_validateMetadata hvalidate).1, display_redirect_iff hparse]
    simp [hurl]
  · unfold registered at h
    simp only [bind_eq_ok, pure_eq_ok] at h
    obtain ⟨-, -, -, -, -, -, -, -, -, -, rfl⟩ := h
    simp [hurl]

/-- What an ID token that verifies signs in. -/
theorem exchanged_of [Jose] {a : Authorization} {claim : IdentityClaim} {refresh kid : Option String}
    {now : Int64} {keys : Issuer → Option String → Except Anyhow Jwks} {issuer : Issuer}
    {principal : Principal} (hnode : gw.node = claim.node)
    (hopened : opened claim [gw.upstream.issuer] = .ok (issuer, kid))
    (hjudged : judged claim issuer [gw.upstream.audience] now (keys issuer kid) = .ok principal) :
    exchanged gw a (.ok ⟨some claim.idToken, refresh⟩) now keys = .ok ⟨claim, principal, refresh⟩ := by
  unfold exchanged Login.finish
  simp only [ok_bind, orError_some, hnode, hopened, hjudged, mapErr]
  rfl

/-! ## What is redeemed -/

omit [Web] [Origin] in
theorem pos_of_lt {m n : Int64} (hn : 0 ≤ n.toInt) (h : n.toInt < m.toInt) : ¬m - n ≤ 0 := by
  have hm := m.toInt_lt
  rw [Int64.not_le, Int64.lt_iff_toInt_lt, Int64.toInt_sub, Int64.toInt_zero,
    Int.bmod_eq_of_le (by omega) (by omega)]
  omega

theorem redeemable_eq_ok {grant : CodeGrant} {f : Form} {now n : Int64} :
    redeemable gw grant f now = .ok n ↔ f.get? "client_id" = some grant.clientId ∧
      f.get? "redirect_uri" = some (Web.display grant.redirectUri) ∧
      pkceOk ((f.get? "code_verifier").getD "") grant.codeChallenge = true ∧
      (∀ r ∈ f.get? "resource", resourceMatches gw.urls r = true) ∧
      ¬grant.session.notAfter - now ≤ 0 ∧ grant.session.notAfter - now = n := by
  unfold redeemable
  simp only [bind_eq_ok, ensure_eq_ok, exists_const, forEach_eq_ok, Option.mem_toList, pure_eq_ok]
  rfl

/-- No refusal is a token. -/
theorem errors_redeemable (grant : CodeGrant) (f : Form) (now : Int64) :
    Errors (fun r => ∀ t n, r ≠ .token t n) (redeemable gw grant f now) :=
  .bind (.ensure nofun) fun _ => .bind (.ensure nofun) fun _ => .bind (.ensure nofun) fun _ =>
    .bind (.forEach fun _ => .ensure nofun) fun _ => .bind (.ensure nofun) fun _ => .ok _

/-- A code that is held is redeemed exactly if the request may have it, the token can be drawn, and
the sessions written. -/
theorem redeem_token_iff {s : Store} {code token : String} {f : Form} {now n : Int64}
    {drawn : Except Anyhow String} {persisted : Bool} {grant : CodeGrant}
    (hheld : s.codes.get? code = some grant) (hlive : now < grant.expires) :
    (redeem gw s code f now drawn persisted).2.1 = .token token n ↔
      redeemable gw grant f now = .ok n ∧ drawn = .ok token ∧ persisted = true := by
  have hcode : s.redeemCode code now = ({ s with codes := s.codes.erase code }, some grant) := by
    simp [Store.redeemCode, hheld, hlive]
  unfold redeem
  rw [hcode]
  dsimp only
  split
  · rename_i r hr
    have hnot := errors_redeemable grant f now r hr token n
    simp [hr, hnot]
  · rename_i m hm
    rw [hm]
    cases drawn with
    | error e => simp
    | ok t => cases persisted <;> simp [and_comm]

/-! ## What a run was asked -/

variable {β ι : Type} [DecidableEq β] [DecidableEq ι] [Jose] {s t : OAuth β ι}
  {e : OAuthEvent β ι} {es : List (OAuthEvent β ι)}

/-- `q` was accepted of the client `c`, as `a`. -/
def Asked (gw : Gateway) (es : List (OAuthEvent β ι)) (q : Form) (c : Client) (a : Authorization) :
    Prop :=
  ∃ i b client verifier id now victims, .authorize i b q client verifier id now victims ∈ es ∧
    authorization gw q client verifier now = .ok (c, a)

omit [DecidableEq β] [DecidableEq ι] [Jose] in
theorem Asked.mono {fs : List (OAuthEvent β ι)} {q : Form} {c : Client} {a : Authorization}
    (h : Asked gw es q c a) : Asked gw (es ++ fs) q c a := by
  obtain ⟨i, b, client, verifier, id, now, victims, hmem, hok⟩ := h
  exact ⟨i, b, client, verifier, id, now, victims, List.mem_append_left fs hmem, hok⟩

/-- An authorization that was asked for. -/
def WasAsked (gw : Gateway) (es : List (OAuthEvent β ι)) (a : Authorization) : Prop :=
  ∃ q c, Asked gw es q c a

/-- The stage is of an authorization that was asked for. -/
def StageAsked (gw : Gateway) (es : List (OAuthEvent β ι)) : OAuthStage β → Prop
  | .confirming _ _ a => WasAsked gw es a
  | .exchanging _ _ a _ _ => WasAsked gw es a
  | .viewing _ _ a _ _ => WasAsked gw es a
  | .done _ => True

/-- All that is under way was asked for. -/
structure Traced (gw : Gateway) (es : List (OAuthEvent β ι)) (s : OAuth β ι) : Prop where
  pending : ∀ id a, s.store.pending.get? id = some a → WasAsked gw es a
  stages : ∀ i stage, s.requests i = some stage → StageAsked gw es stage
  codes : ∀ code g, s.store.codes.get? code = some g →
    ∃ a session now, WasAsked gw es a ∧ g = grantOf a session now

namespace Traced

omit [Jose] [DecidableEq β] [DecidableEq ι] in
theorem append (h : Traced gw es s) (e : OAuthEvent β ι) : Traced gw (es ++ [e]) s := by
  have hmono : ∀ {a}, WasAsked gw es a → WasAsked gw (es ++ [e]) a := fun ⟨q, c, ha⟩ =>
    ⟨q, c, ha.mono⟩
  refine ⟨fun id a ha => hmono (h.pending id a ha), fun i stage hi => ?_, fun code g hg => ?_⟩
  · have hstage := h.stages i stage hi
    cases stage with
    | done reply => trivial
    | confirming b id a => exact hmono hstage
    | exchanging b id a form now => exact hmono hstage
    | viewing b id a session now => exact hmono hstage
  · obtain ⟨a, session, now, ha, rfl⟩ := h.codes code g hg
    exact ⟨a, session, now, hmono ha, rfl⟩

/-- What a step makes of what is under way. -/
theorem of_steps (h : Traced gw es s) (hstep : Steps gw s e t) : Traced gw (es ++ [e]) t := by
  have h' := h.append e
  have hpending : ∀ {id now a}, s.store.pending? id now = some a → WasAsked gw (es ++ [e]) a :=
    fun ha => h'.pending _ _ (Option.filter_eq_some_iff.mp ha).1
  cases hstep with
  | refused _ => exact ⟨h'.pending, stages_update h'.stages trivial, h'.codes⟩
  | @began i b q client verifier id now victims c a store hidle hasked hstore =>
    obtain ⟨pending, hpend, rfl⟩ := Option.map_eq_some_iff.mp hstore
    refine ⟨fun x w hx => ?_, stages_update h'.stages trivial, h'.codes⟩
    rcases SortedMap.get?_enter hpend hx with ⟨-, rfl⟩ | hold
    · exact ⟨q, c, i, b, client, verifier, .ok id, now, victims, by simp, hasked⟩
    · exact h'.pending x w hold
  | confirms _ _ _ ha => exact ⟨h'.pending, stages_update h'.stages (hpending ha), h'.codes⟩
  | confirmed _ => exact ⟨h'.pending, stages_update h'.stages trivial, h'.codes⟩
  | lapses _ =>
    exact ⟨fun x w hx => h'.pending x w (SortedMap.get?_of_erase hx),
      stages_update h'.stages trivial, h'.codes⟩
  | returned _ _ _ ha =>
    exact ⟨fun x w hx => h'.pending x w (SortedMap.get?_of_erase hx),
      stages_update h'.stages (hpending ha), h'.codes⟩
  | @signedIn i b id a form now at_ reply keys login hstage _ =>
    have hasked : WasAsked gw (es ++ [.exchanged i reply at_ keys]) a := h'.stages i _ hstage
    exact ⟨h'.pending, stages_update h'.stages hasked, h'.codes⟩
  | @coded i b id a session now tools code victims store hstage _ hstore =>
    obtain ⟨codes, hcodes, rfl⟩ := Option.map_eq_some_iff.mp hstore
    refine ⟨h'.pending, stages_update h'.stages trivial, fun x g hx => ?_⟩
    rcases SortedMap.get?_enter hcodes hx with ⟨-, rfl⟩ | hold
    · exact ⟨a, session, now, h'.stages i _ hstage, rfl⟩
    · exact h'.codes x g hold
  | @redeemed i f now drawn persisted code _ _ =>
    obtain ⟨hsame, herased⟩ := @redeem_store _ _ gw s.store code f now drawn persisted
    refine ⟨fun x w hx => ?_, stages_update h'.stages trivial, fun x g hx => ?_⟩
    · exact h'.pending x w (hsame ▸ hx)
    · exact h'.codes x g (SortedMap.get?_of_erase (herased ▸ hx))

end Traced

omit [DecidableEq β] [DecidableEq ι] [Jose] in
theorem traced_start (tokens : SortedMap String Session) (now : Int64) :
    Traced gw [] (start (Store.opened tokens now) : OAuth β ι) where
  pending _ _ h := by cases h
  stages _ _ h := by cases h
  codes _ _ h := by cases h

theorem traced_of_run {tokens : SortedMap String Session} {now : Int64}
    (hrun : run (step gw) (start (Store.opened tokens now)) es = some s) : Traced gw es s :=
  run_induction (motive := fun es s => Traced gw es s) (traced_start tokens now)
    (fun _ _ _ _ _ h hstep => h.of_steps (steps_of_step hstep)) hrun

/-! ## How long a code is held -/

/-- The code is presented. -/
def Presented (e : OAuthEvent β ι) (code : String) : Prop :=
  ∃ i f now drawn persisted, e = .token i f now drawn persisted ∧ f.get? "code" = some code

/-- Another code is given out, and this one has expired, makes room, or is drawn again. -/
def Displaced (s : OAuth β ι) (e : OAuthEvent β ι) (code : String) (g : CodeGrant) : Prop :=
  ∃ i b id a session now tools code' victims, s.requests i = some (.viewing b id a session now) ∧
    e = .viewed i tools (.ok code') victims ∧ (g.expires ≤ now ∨ code ∈ victims ∨ code = code')

/-- A code is held until it is presented or displaced. -/
theorem held_or {code : String} {g : CodeGrant} (hstep : Steps gw s e t)
    (hheld : s.store.codes.get? code = some g) :
    t.store.codes.get? code = some g ∨ Presented e code ∨ Displaced s e code g := by
  cases hstep with
  | @began i b q client verifier id now victims c a store hidle hasked hstore =>
    obtain ⟨pending, -, rfl⟩ := Option.map_eq_some_iff.mp hstore
    exact .inl hheld
  | @coded i b id a session now tools code' victims store hstage _ hstore =>
    obtain ⟨codes, hcodes, rfl⟩ := Option.map_eq_some_iff.mp hstore
    by_cases hgone : g.expires ≤ now ∨ code ∈ victims ∨ code = code'
    · exact .inr (.inr ⟨i, b, id, a, session, now, tools, code', victims, hstage, rfl, hgone⟩)
    · obtain ⟨hlive, hvictims, hne⟩ : ¬g.expires ≤ now ∧ code ∉ victims ∧ code ≠ code' := by
        rw [not_or, not_or] at hgone
        exact hgone
      refine .inl (SortedMap.get?_enter_of hcodes hne hvictims ?_ hheld)
      rw [decide_eq_true_eq, grantOf, Int64.add_sub_cancel]
      exact Int64.not_le.mp hlive
  | @redeemed i f now drawn persisted code' _ hcode =>
    by_cases hsame : code = code'
    · exact .inr (.inl ⟨i, f, now, drawn, persisted, rfl, hsame ▸ hcode⟩)
    · obtain ⟨-, herased⟩ := @redeem_store _ _ gw s.store code' f now drawn persisted
      refine .inl ?_
      rw [answers_store, does_store, herased, SortedMap.get?_erase, if_neg hsame, hheld]
  | refused _ => exact .inl hheld
  | confirms _ _ _ _ => exact .inl hheld
  | confirmed _ => exact .inl hheld
  | lapses _ => exact .inl hheld
  | returned _ _ _ _ => exact .inl hheld
  | signedIn _ _ => exact .inl hheld

/-! ## Who is given a token -/

/-- A request presents `code` with the texts that `q` was asked with, a verifier of its challenge,
and in time. -/
structure Presents (gw : Gateway) (q : Form) (code : String) (g : CodeGrant) (f : Form) (now : Int64) :
    Prop where
  grantType : f.get? "grant_type" = some "authorization_code"
  code : f.get? "code" = some code
  clientId : f.get? "client_id" = q.get? "client_id"
  redirectUri : f.get? "redirect_uri" = q.get? "redirect_uri"
  verifier : ∃ verifier challenge, f.get? "code_verifier" = some verifier ∧
    q.get? "code_challenge" = some challenge ∧ pkceOk verifier challenge = true
  resource : ∀ r ∈ f.get? "resource", resourceMatches gw.urls r = true
  clock : 0 ≤ now.toInt
  live : now < g.expires
  signedIn : now < g.session.notAfter

/-- The texts of `q` are the normal forms of what they name, but for the id of a registration. -/
def NormalTexts (q : Form) : Prop :=
  (∀ text ∈ q.get? "redirect_uri", IsNormal text) ∧
    ∀ text ∈ q.get? "client_id", isMetadataUrl text = true → IsNormal text

/-- The clients of a run are looked up by the ids they give. -/
def LooksUp [UrlParts] [Hmac] (key : Hmac.Key) (es : List (OAuthEvent β ι)) : Prop :=
  ∀ i b q client verifier id now victims, .authorize i b q client verifier id now victims ∈ es →
    ∀ text ∈ q.get? "client_id", ∃ fetched, client = clientOf key fetched text

omit [DecidableEq β] [DecidableEq ι] [Jose] in
/-- What was asked for matches the texts it was asked with, exactly if they are normal. -/
theorem matches_iff [UrlParts] [Hmac] {key : Hmac.Key} (hclients : LooksUp key es) {q : Form}
    {c : Client} {a : Authorization} (h : Asked gw es q c a) :
    (q.get? "client_id" = some a.clientId ∧ q.get? "redirect_uri" = some (Web.display a.redirectUri)) ↔
      NormalTexts q := by
  obtain ⟨i, b, client, verifier, id, now, victims, hmem, hok⟩ := h
  obtain ⟨hclient, hid, -, redirect, hredirect, hparse⟩ := of_authorization hok
  obtain ⟨text, htext⟩ : ∃ text, q.get? "client_id" = some text := by
    obtain ⟨text, htext, -⟩ := bind_eq_ok.mp hok
    exact ⟨text, orError_eq_ok.mp htext⟩
  obtain ⟨fetched, hlookup⟩ := hclients i b q client verifier id now victims hmem text htext
  have hc : clientOf key fetched text = .ok c := by rw [← hlookup, hclient]
  unfold NormalTexts
  rw [hid, htext, hredirect, Option.some.injEq, Option.some.injEq, @eq_comm _ text, clientId_iff hc,
    @eq_comm _ redirect, display_redirect_iff hparse]
  simp [and_comm]

/-- A code that is held, presented as it was asked for: a token is given exactly if the texts are
normal, it can be drawn, and the sessions written. -/
theorem redeemed_of_presents [UrlParts] [Hmac] {key : Hmac.Key} (hclients : LooksUp key es)
    {q : Form} {c : Client} {a : Authorization} {session : Session} {issued now : Int64}
    {code : String} {f : Form} {i : ι} {drawn : Except Anyhow String} {persisted : Bool}
    (hasked : Asked gw es q c a)
    (hheld : s.store.codes.get? code = some (grantOf a session issued)) (hidle : s.requests i = none)
    (hf : Presents gw q code (grantOf a session issued) f now) :
    ∃ t, step gw s (.token i f now drawn persisted) = some t ∧
      ((∃ token n, t.requests i = some (.done (.token token n))) ↔
        NormalTexts q ∧ (∃ token, drawn = .ok token) ∧ persisted = true) := by
  refine ⟨_, step_token hidle hf.grantType hf.code, ?_⟩
  have hreply : ∀ token n, (redeem gw s.store code f now drawn persisted).2.1 = .token token n ↔
      redeemable gw (grantOf a session issued) f now = .ok n ∧ drawn = .ok token ∧
        persisted = true := fun _ _ => redeem_token_iff hheld hf.live
  have hrest : ∀ n, redeemable gw (grantOf a session issued) f now = .ok n ↔
      NormalTexts q ∧ session.notAfter - now = n := by
    intro n
    obtain ⟨verifier, challenge, hverifier, hchallenge, hpkce⟩ := hf.verifier
    have hgiven : challenge = a.codeChallenge := by
      obtain ⟨_, _, _, _, _, _, _, _, hok⟩ := hasked
      have ha := (of_authorization hok).2.2.1
      rw [hchallenge] at ha
      exact Option.some.inj ha
    have htime : ¬session.notAfter - now ≤ 0 :=
      pos_of_lt hf.clock (Int64.lt_iff_toInt_lt.mp hf.signedIn)
    rw [redeemable_eq_ok, hf.clientId, hf.redirectUri, ← matches_iff hclients hasked, hverifier,
      Option.getD_some]
    constructor
    · rintro ⟨hclient, hredirect, -, -, -, hn⟩
      exact ⟨⟨hclient, hredirect⟩, hn⟩
    · rintro ⟨⟨hclient, hredirect⟩, hn⟩
      rw [hgiven] at hpkce
      exact ⟨hclient, hredirect, hpkce, hf.resource, htime, hn⟩
  simp only [answers_requests, Function.update_self, Option.some.injEq, OAuthStage.done.injEq, hreply,
    hrest]
  constructor
  · rintro ⟨token, n, ⟨hnormal, -⟩, hdrawn, hpersisted⟩
    exact ⟨hnormal, ⟨token, hdrawn⟩, hpersisted⟩
  · rintro ⟨hnormal, ⟨token, hdrawn⟩, hpersisted⟩
    exact ⟨token, _, ⟨hnormal, rfl⟩, hdrawn, hpersisted⟩

/-- In every run, a callback that gives out a code gives it for what was asked, and the code is then
held until it is presented or displaced. Presented as it was asked for, it gets a token exactly if
the texts it was asked with are normal, a token can be drawn, and the sessions written. -/
theorem redeemed_iff [UrlParts] [Hmac] (gw : Gateway) (key : Hmac.Key)
    (tokens : SortedMap String Session) (opened : Int64) (es : List (OAuthEvent β ι)) (s : OAuth β ι)
    (hrun : run (step gw) (start (Store.opened tokens opened)) es = some s)
    (hclients : LooksUp key es) :
    (∀ i b id a session now tools code victims t, s.requests i = some (.viewing b id a session now) →
      admitted gw a tools = .ok () → step gw s (.viewed i tools (.ok code) victims) = some t →
      (∃ q c, Asked gw es q c a) ∧ t.store.codes.get? code = some (grantOf a session now)) ∧
    (∀ e t code g, step gw s e = some t → s.store.codes.get? code = some g →
      t.store.codes.get? code = some g ∨ Presented e code ∨ Displaced s e code g) ∧
    ∀ q c a session issued code, Asked gw es q c a →
      s.store.codes.get? code = some (grantOf a session issued) →
      ∀ i f now drawn persisted, s.requests i = none →
        Presents gw q code (grantOf a session issued) f now →
        ∃ t, step gw s (.token i f now drawn persisted) = some t ∧
          ((∃ token n, t.requests i = some (.done (.token token n))) ↔
            NormalTexts q ∧ (∃ token, drawn = .ok token) ∧ persisted = true) := by
  have htraced := traced_of_run hrun
  refine ⟨fun i b id a session now tools code victims t hstage hadmitted hstep => ?_,
    fun e t code g hstep => held_or (steps_of_step hstep),
    fun q c a session issued code hasked hheld i f now drawn persisted hidle hf =>
      redeemed_of_presents hclients hasked hheld hidle hf⟩
  refine ⟨htraced.stages i _ hstage, ?_⟩
  rw [step, hstage] at hstep
  simp only [hadmitted, Option.map_eq_some_iff] at hstep
  obtain ⟨store, hstore, rfl⟩ := hstep
  obtain ⟨codes, hcodes, rfl⟩ := Option.map_eq_some_iff.mp hstore
  exact SortedMap.get?_enter_self hcodes

end

/-! ## A redirect URI that is not its own normal form -/

section Sample

attribute [local instance] Jose.plain

/-- The one URL here that is not its own normal form. -/
def bareUri : String := "https://client.example"

/-- Its normal form. -/
def fullUri : String := "https://client.example/"

/-- URLs as their normal forms. -/
@[reducible] def clientWeb : Web where
  Url := String
  parse s := .ok (if s = bareUri then fullUri else s)
  scheme _ := "https"
  host _ := none
  display := id
  quoted := id
  serdeError _ := ""
  utf8Error _ := ""

attribute [local instance] clientWeb

def sampleVerifier : String := "dBjftJeZ4CVP-mB92K27uhbUJU1p1r_wW1gFWFOEjXk"

def sampleChallenge : String := "E9Melhoa2OwvFrEMTJguCHaoeK1t8URWbuGJSstw-cM"

def sampleBinding : String := "YTTf5CYt8TyCZbOtStt1okQNVnJkPNWlCgkC5uB4Tg8"

def sampleTokenHash : String := "PEaenWxYddN6Q_NT1PiOYfz4EsZu7jRXRlpAsNpBU-A"

/-- The digests of the texts that are hashed here. -/
def sampleDigest (text : List UInt8) : Bytes 32 :=
  let digest := fun (s : String) => ((Base64.decode s.toList).bind (Bytes.ofList? 32)).getD (checksum text)
  if text = utf8 sampleVerifier.toList then digest sampleChallenge
  else if text = utf8 "wires gateway callback v1:id".toList then digest sampleBinding
  else if text = utf8 "token".toList then digest sampleTokenHash
  else checksum text

@[reducible] def clientOrigin : Origin where
  sha256 := sampleDigest
  hostStr _ := some "client.example"
  path _ := "/"
  query _ := none
  fragment _ := none
  origin _ := "https://client.example"
  extendPairs (u : String) ps := u ++ "?" ++ "&".intercalate (ps.map fun p => p.1 ++ "=" ++ p.2)

@[reducible] def clientParts : UrlParts where
  hasHost _ := true
  username _ := ""
  password _ := none

attribute [local instance] clientOrigin clientParts plainHmac

def sampleGateway : Gateway :=
  ⟨⟨"https://gw.example", "https://gw.example/oauth/callback", rfl⟩, ⟨"idp", "cli", none⟩, Bytes.fill 32 4⟩

theorem challengeOf_sampleVerifier : challengeOf sampleVerifier = sampleChallenge := by decide +kernel

theorem callbackBinding_id : callbackBinding "id" = sampleBinding := by decide +kernel

/-! ### One sign-in -/

variable (redirect : String)

/-- What a client with one redirect URI is registered as. -/
def sampleClient : Client :=
  ⟨clientId (7 : UInt8) (Registered.body ⟨"an MCP client", [redirect], 0⟩), "an MCP client",
    [if redirect = bareUri then fullUri else redirect]⟩

def sampleQuery : Form := SortedMap.collect [("client_id", (sampleClient redirect).id),
  ("redirect_uri", redirect), ("response_type", "code"), ("code_challenge", sampleChallenge),
  ("code_challenge_method", "S256")]

def sampleAuthorization : Authorization :=
  { clientId := (sampleClient redirect).id
    clientName := "an MCP client"
    redirectUri := if redirect = bareUri then fullUri else redirect
    state := none
    codeChallenge := sampleChallenge
    resource := "https://gw.example/mcp"
    upstreamVerifier := sampleVerifier
    loginHint := none
    created := 0 }

theorem get?_sampleQuery (k : String) : (sampleQuery redirect).get? k =
    if k = "code_challenge_method" then some "S256"
    else if k = "code_challenge" then some sampleChallenge
    else if k = "response_type" then some "code"
    else if k = "redirect_uri" then some redirect
    else if k = "client_id" then some (sampleClient redirect).id
    else none := by
  rw [sampleQuery, SortedMap.get?_collect]
  simp only [lastOf_cons]
  split_ifs <;> rfl

theorem allowsRedirect_sample :
    (sampleClient redirect).allowsRedirect (if redirect = bareUri then fullUri else redirect) = true := by
  simp [Client.allowsRedirect, sampleClient]

theorem authorization_sample : authorization sampleGateway (sampleQuery redirect)
    (.ok (sampleClient redirect)) (.ok sampleVerifier) 0 =
      .ok (sampleClient redirect, sampleAuthorization redirect) := by
  have hchallenge : byteLen sampleChallenge = 43 := by decide
  unfold authorization
  simp [get?_sampleQuery, mapErr, hchallenge, ensure_of, forEach, pure, Except.pure]
  exact ⟨_, ⟨rfl, allowsRedirect_sample redirect⟩, rfl⟩

def sampleLogin : Login := ⟨trustClaim, trustPrincipal, none⟩

theorem judged_sample : judged trustClaim "idp" ["cli"] 2 (.ok ⟨[sampleJwk]⟩) = .ok trustPrincipal := by
  obtain ⟨jws, jwks, hreads, hkeys, hvalid, hnames⟩ :=
    (@verify_eq_ok Web.plain _ _ _ _ _ _).mp verify_trustClaim
  have hjws := hreads.unique reads_trustClaim
  rw [hjws] at hvalid hnames
  have hjwks : (⟨[sampleJwk]⟩ : Jwks) = jwks := Except.ok.inj hkeys
  rw [← hjwks] at hvalid
  have hiat : (sampleJws (sampleClaims ++ [("sub", toJson "7")])).payload.get "iat" = none := rfl
  have hnow : (2 : Int64).toInt ≤ (100 : Int64).toInt + 60 := by decide
  exact judged_eq_ok.mpr ⟨_, rfl, verifyClaim_eq_ok.mpr ⟨_, reads_trustClaim,
    ⟨hvalid.key, hvalid.iss, hvalid.aud, hvalid.expires, hnow, .inl hiat, hvalid.nonce⟩, hnames⟩⟩

theorem opened_sample : opened trustClaim ["idp"] = .ok ("idp", none) :=
  opened_eq_ok.mpr ((@opened_eq_ok Web.plain _ _ _ _ _).mp opened_trustClaim)

theorem exchanged_sample (a : Authorization) : exchanged sampleGateway a
    (.ok ⟨some trustClaim.idToken, none⟩) 2 (fun _ _ => .ok ⟨[sampleJwk]⟩) = .ok sampleLogin :=
  exchanged_of rfl opened_sample judged_sample

/-- The cookies of the two requests that come from the browser. -/
def consentHeaders : List String := [CONSENT_COOKIE ++ "=id"]

def callbackHeaders : List String := [CALLBACK_COOKIE ++ "=" ++ sampleBinding]

theorem cookies_consentHeaders : cookies consentHeaders = [(CONSENT_COOKIE, "id")] := by decide

theorem cookies_callbackHeaders : cookies callbackHeaders = [(CALLBACK_COOKIE, sampleBinding)] := by
  decide +kernel

theorem confirmable_sample {s : Store} {a : Authorization} {now : Int64}
    (ha : s.pending? "id" now = some a) :
    confirmable s consentHeaders (SortedMap.collect [("id", "id")]) now = .ok ("id", a) := by
  have hid : SortedMap.get? (SortedMap.collect [("id", "id")]) "id" = some "id" := by decide
  have hcookie : cookie consentHeaders CONSENT_COOKIE = some "id" := by
    rw [cookie, cookies_consentHeaders]
    rfl
  unfold confirmable
  simp only [hid, hcookie, Option.getD_some, ha]
  rfl

theorem returned_sample {s : Store} {a : Authorization} {now : Int64}
    (ha : s.pending? "id" now = some a) :
    returned sampleGateway s callbackHeaders (SortedMap.collect [("state", "id"), ("code", "upstream")])
      now = ((s.finish "id" now).1, .ok ("id", a, "upstream")) := by
  have hstate : SortedMap.get? (SortedMap.collect [("state", "id"), ("code", "upstream")]) "state" =
    some "id" := by decide
  have hcode : SortedMap.get? (SortedMap.collect [("state", "id"), ("code", "upstream")]) "code" =
    some "upstream" := by decide
  have herror : SortedMap.get? (SortedMap.collect [("state", "id"), ("code", "upstream")]) "error" =
    none := by decide
  have hcookie : cookie callbackHeaders CALLBACK_COOKIE = some (callbackBinding "id") := by
    rw [cookie, cookies_callbackHeaders, callbackBinding_id]
    rfl
  unfold returned
  simp only [hstate, Option.getD_some, hcookie, Store.finish, ha, hcode, herror]
  rfl

/-- One sign-in, up to the code. -/
def sampleEvents : List (OAuthEvent Unit (Fin 4)) :=
  [.authorize 0 () (sampleQuery redirect) (.ok (sampleClient redirect)) (.ok sampleVerifier) (.ok "id")
      0 [],
    .confirm 1 () consentHeaders (SortedMap.collect [("id", "id")]) 0,
    .discovered 1 (.ok ⟨"idp", "https://idp.example/auth", "https://idp.example/token",
      "https://idp.example/keys"⟩),
    .callback 2 () callbackHeaders (SortedMap.collect [("state", "id"), ("code", "upstream")]) 1,
    .exchanged 2 (.ok ⟨some trustClaim.idToken, none⟩) 2 (fun _ _ => .ok ⟨[sampleJwk]⟩),
    .viewed 2 (.ok [⟨sampleName, "orders"⟩]) (.ok "code") []]

/-- The grant of its code. -/
def sampleGrant : CodeGrant :=
  grantOf (sampleAuthorization redirect) (sessionOf (sampleAuthorization redirect) sampleLogin) 1

theorem run_sampleEvents : ∃ s : OAuth Unit (Fin 4),
    run (step sampleGateway) (start (Store.opened ∅ 0)) (sampleEvents redirect) = some s ∧
      s.store.codes.get? "code" = some (sampleGrant redirect) ∧ s.requests 3 = none := by
  -- The two tables, once the authorization and the code are put in.
  obtain ⟨asked, hasked⟩ : ∃ asked, Store.begin (Store.opened ∅ 0) (sampleAuthorization redirect) "id"
    [] = some asked := ⟨_, rfl⟩
  obtain ⟨pending, hpending, rfl⟩ := Option.map_eq_some_iff.mp hasked
  have hget := SortedMap.get?_enter_self hpending
  have hlive : ∀ now : Int64, now < 600 →
      Store.pending? { Store.opened ∅ 0 with pending } "id" now = some (sampleAuthorization redirect) := by
    intro now hnow
    have hexpiry : (sampleAuthorization redirect).created + PENDING_TTL_SECS = 600 := rfl
    rw [Store.pending?, hget, Option.filter_some, hexpiry, if_pos (decide_eq_true hnow)]
  obtain ⟨issued, hissued⟩ : ∃ issued, Store.issueCode (Store.finish { Store.opened ∅ 0 with pending }
    "id" 1).1 (sampleGrant redirect) "code" [] = some issued := ⟨_, rfl⟩
  obtain ⟨codes, hcodes, rfl⟩ := Option.map_eq_some_iff.mp hissued
  simp only [sampleEvents, run_cons, run_nil]
  refine ⟨_, ⟨_, step_authorize rfl (authorization_sample redirect) hasked, _,
    step_confirm rfl ?_ (confirmable_sample (hlive 0 (by decide))), _, step_discovered rfl, _,
    step_callback rfl ?_ (returned_sample (hlive 1 (by decide))), _,
    step_exchanged rfl (exchanged_sample _), _, step_viewed rfl rfl hissued, rfl⟩,
    SortedMap.get?_enter_self hcodes, rfl⟩
  · rw [cookies_consentHeaders]
    simp [start, consent, Reply.setCookie]
  · rw [cookies_callbackHeaders, ← callbackBinding_id]
    simp [start, upstream, Reply.setCookie]

theorem register_sample (h : ¬byteLen redirect > MAX_REDIRECT_URI_LEN) :
    register sampleKey ⟨[redirect], none⟩ 0 = .ok (sampleClient redirect) := by
  have huri : registerUri redirect = .ok (if redirect = bareUri then fullUri else redirect) := rfl
  have hany : ¬([redirect].any fun u => decide (byteLen u > MAX_REDIRECT_URI_LEN)) = true := by
    simpa using h
  have hsome : [redirect] ≠ [] := List.cons_ne_nil _ _
  have hmany : ¬[redirect].length > MAX_REDIRECT_URIS := by simp [MAX_REDIRECT_URIS]
  unfold register
  simp only [ensure_of hsome, ensure_of hmany, ensure_of hany, ok_bind, List.mapM_cons, List.mapM_nil, huri]
  rfl

theorem isMetadataUrl_sample : isMetadataUrl (sampleClient redirect).id = false := by
  rw [isMetadataUrl, sampleClient, toList_clientId]
  rfl

/-- The one client is looked up by its id, which a registration gave. -/
theorem looksUp_sample (h : ¬byteLen redirect > MAX_REDIRECT_URI_LEN) :
    LooksUp sampleKey (sampleEvents redirect) := by
  intro i b q client verifier id now victims hmem text htext
  simp only [sampleEvents, List.mem_cons, OAuthEvent.authorize.injEq, reduceCtorEq, List.not_mem_nil,
    or_false] at hmem
  obtain ⟨-, -, rfl, rfl, -⟩ := hmem
  have hid : text = (sampleClient redirect).id := by simpa [get?_sampleQuery] using htext.symm
  refine ⟨.error [], ?_⟩
  rw [hid, clientOf, isMetadataUrl_sample]
  exact (registered_register (register_sample redirect h)).symm

theorem asked_sample : Asked sampleGateway (sampleEvents redirect) (sampleQuery redirect)
    (sampleClient redirect) (sampleAuthorization redirect) :=
  ⟨_, _, _, _, _, _, _, List.mem_cons_self, authorization_sample redirect⟩

/-- The code, presented with the texts it was asked with. -/
def sampleForm : Form := SortedMap.collect [("grant_type", "authorization_code"), ("code", "code"),
  ("client_id", (sampleClient redirect).id), ("redirect_uri", redirect),
  ("code_verifier", sampleVerifier)]

theorem get?_sampleForm (k : String) : (sampleForm redirect).get? k =
    if k = "code_verifier" then some sampleVerifier
    else if k = "redirect_uri" then some redirect
    else if k = "client_id" then some (sampleClient redirect).id
    else if k = "code" then some "code"
    else if k = "grant_type" then some "authorization_code"
    else none := by
  rw [sampleForm, SortedMap.get?_collect]
  simp only [lastOf_cons]
  split_ifs <;> rfl

theorem presents_sample : Presents sampleGateway (sampleQuery redirect) "code" (sampleGrant redirect)
    (sampleForm redirect) 3 where
  grantType := by simp [get?_sampleForm]
  code := by simp [get?_sampleForm]
  clientId := by simp [get?_sampleForm, get?_sampleQuery]
  redirectUri := by simp [get?_sampleForm, get?_sampleQuery]
  verifier := by
    refine ⟨sampleVerifier, sampleChallenge, by simp [get?_sampleForm], by simp [get?_sampleQuery], ?_⟩
    rw [pkceOk, challengeOf_sampleVerifier]
    decide
  resource := by simp [get?_sampleForm]
  clock := by decide
  live := by
    show (3 : Int64) < 1 + CODE_TTL_SECS
    decide
  signedIn := by
    show (3 : Int64) < 100
    decide

theorem normalTexts_fullUri : NormalTexts (sampleQuery fullUri) := by
  refine ⟨fun text htext => ?_, fun text htext hurl => ?_⟩
  · have htext' : text = fullUri := by simpa [get?_sampleQuery] using htext.symm
    rw [htext']
    rfl
  · have htext' : text = (sampleClient fullUri).id := by simpa [get?_sampleQuery] using htext.symm
    rw [htext', isMetadataUrl_sample] at hurl
    cases hurl

/-- Of the normal form, the code is redeemed. -/
theorem redeemed_iff_sample : ∃ s t : OAuth Unit (Fin 4),
    run (step sampleGateway) (start (Store.opened ∅ 0)) (sampleEvents fullUri) = some s ∧
      step sampleGateway s (.token 3 (sampleForm fullUri) 3 (.ok "token") true) = some t ∧
      ∃ token n, t.requests 3 = some (.done (.token token n)) := by
  obtain ⟨s, hrun, hheld, hidle⟩ := run_sampleEvents fullUri
  have hlooks : LooksUp sampleKey (sampleEvents fullUri) := looksUp_sample fullUri (by decide +kernel)
  obtain ⟨-, -, hredeemed⟩ :=
    redeemed_iff sampleGateway sampleKey ∅ 0 (sampleEvents fullUri) s hrun hlooks
  obtain ⟨t, hstep, htoken⟩ := hredeemed _ _ _ _ _ _ (asked_sample fullUri) hheld 3 (sampleForm fullUri)
    3 (.ok "token") true hidle (presents_sample fullUri)
  exact ⟨s, t, hrun, hstep, htoken.mpr ⟨normalTexts_fullUri, ⟨"token", rfl⟩, rfl⟩⟩

/-- Of a URL whose normal form is another text, no request that presents the code gets a token. -/
theorem not_redeemed : ∃ s : OAuth Unit (Fin 4),
    run (step sampleGateway) (start (Store.opened ∅ 0)) (sampleEvents bareUri) = some s ∧
      LooksUp sampleKey (sampleEvents bareUri) ∧
      Asked sampleGateway (sampleEvents bareUri) (sampleQuery bareUri) (sampleClient bareUri)
        (sampleAuthorization bareUri) ∧
      s.store.codes.get? "code" = some (sampleGrant bareUri) ∧ s.requests 3 = none ∧
      Presents sampleGateway (sampleQuery bareUri) "code" (sampleGrant bareUri) (sampleForm bareUri) 3 ∧
      ∀ t, step sampleGateway s (.token 3 (sampleForm bareUri) 3 (.ok "token") true) = some t →
        ¬∃ token n, t.requests 3 = some (.done (.token token n)) := by
  obtain ⟨s, hrun, hheld, hidle⟩ := run_sampleEvents bareUri
  have hlooks : LooksUp sampleKey (sampleEvents bareUri) := looksUp_sample bareUri (by decide +kernel)
  refine ⟨s, hrun, hlooks, asked_sample bareUri, hheld, hidle, presents_sample bareUri, ?_⟩
  intro t hstep htoken
  obtain ⟨t', hstep', hiff⟩ : ∃ t', step sampleGateway s
      (.token 3 (sampleForm bareUri) 3 (.ok "token") true) = some t' ∧ _ :=
    redeemed_of_presents hlooks (asked_sample bareUri) hheld hidle (presents_sample bareUri)
  rw [hstep] at hstep'
  obtain rfl := Option.some.inj hstep'
  obtain ⟨hnormal, -⟩ := hiff.mp htoken
  have hbare : IsNormal bareUri := hnormal.1 bareUri (by simp [get?_sampleQuery])
  exact absurd (Option.some.inj hbare) (by decide)

end Sample

end OAuth

end Wires
