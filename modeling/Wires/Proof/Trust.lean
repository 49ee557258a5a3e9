import Wires.Impl.Jwks
import Wires.Proof.IdToken

/-!
# Whose tokens are accepted

Trust as a relation of issuers and audiences: the policy's (`Policy.Accepts`),
less what `host.json` does not keep (`HostConfig.Keeps`). A token is accepted
when it carries an audience that the relation has for the token's own issuer
(`verify_eq_ok`), and `KeysFor` says where the keys it was verified with come
from. `trust_kept` puts these together over every run of the fetcher.
-/

namespace Wires

/-! ## Trust as a relation -/

/-- The policy accepts an audience from an issuer. -/
def Policy.Accepts (policy : Policy) (issuer : Issuer) (a : Audience) : Prop :=
  ∃ c, policy.issuers.get? issuer = some c ∧ a ∈ c.audiences

/-- `host.json` keeps an audience of an issuer: it does not narrow, or it lists the issuer with
that audience or with none. -/
def HostConfig.Keeps (config : HostConfig) (issuer : Issuer) (a : Audience) : Prop :=
  ∀ listed, config.identity = some listed →
    ∃ t ∈ listed, t.issuer = issuer ∧ (t.audiences = [] ∨ a ∈ t.audiences)

/-- A `host.json` narrows at least what another does: it lists no more issuers, and no more
audiences of one. -/
def HostConfig.Narrows (narrower config : HostConfig) : Prop :=
  ∀ listed, config.identity = some listed → ∃ fewer, narrower.identity = some fewer ∧
    ∀ t' ∈ fewer, ∃ t ∈ listed, t.issuer = t'.issuer ∧
      (t.audiences = [] ∨ t'.audiences ≠ [] ∧ t'.audiences ⊆ t.audiences)

theorem HostConfig.Narrows.keeps {narrower config : HostConfig} (h : narrower.Narrows config)
    {issuer : Issuer} {a : Audience} (hk : narrower.Keeps issuer a) : config.Keeps issuer a := by
  intro listed hl
  obtain ⟨fewer, hf, hall⟩ := h listed hl
  obtain ⟨t', ht', hi', ha'⟩ := hk fewer hf
  obtain ⟨t, ht, hi, hcase⟩ := hall t' ht'
  refine ⟨t, ht, hi.trans hi', ?_⟩
  rcases hcase with hempty | ⟨hne, hsub⟩
  · exact .inl hempty
  · exact .inr (hsub (ha'.resolve_left hne))

theorem validateIssuers_eq_ok {issuers : List Issuer} {listed : List TrustedIssuer} {u : Unit}
    (h : validateIssuers issuers listed = .ok u) :
    (listed.map TrustedIssuer.issuer).Nodup ∧ ∀ t ∈ listed, t.issuer ∉ issuers := by
  induction listed generalizing issuers with
  | nil => simp
  | cons t rest ih =>
    simp only [validateIssuers, bind_eq_ok, ensure_eq_ok, exists_const] at h
    obtain ⟨-, hnew, -, hrest⟩ := h
    obtain ⟨hnodup, hno⟩ := ih hrest
    simp only [List.mem_append, List.mem_singleton, not_or] at hno
    refine ⟨List.nodup_cons.mpr ⟨fun hmem => ?_, hnodup⟩, ?_⟩
    · obtain ⟨t', ht', he⟩ := List.mem_map.mp hmem
      exact (hno t' ht').2 he
    · simp only [List.mem_cons, forall_eq_or_imp]
      exact ⟨hnew, fun t' ht' => (hno t' ht').1⟩

/-- Of a valid file's entries, the one for an issuer is the one that is found. -/
theorem find?_issuer {listed : List TrustedIssuer} (h : (listed.map TrustedIssuer.issuer).Nodup)
    {issuer : Issuer} {t : TrustedIssuer} :
    listed.find? (fun t => t.issuer = issuer) = some t ↔ t ∈ listed ∧ t.issuer = issuer := by
  constructor
  · intro hf
    exact ⟨List.mem_of_find?_eq_some hf, by simpa using List.find?_some hf⟩
  · rintro ⟨ht, rfl⟩
    obtain ⟨t', hf⟩ := Option.isSome_iff_exists.mp (List.find?_isSome.mpr ⟨t, ht, by simp⟩ :
      (listed.find? fun t' => t'.issuer = t.issuer).isSome)
    have hi : t'.issuer = t.issuer := by simpa using List.find?_some hf
    rw [hf, List.inj_on_of_nodup_map h (List.mem_of_find?_eq_some hf) ht hi]

namespace IdpTrust

theorem audiencesFor_of_lookup {t : IdpTrust} {issuer : Issuer} :
    t.audiencesFor issuer = (t.byIssuer.lookup issuer).getD [] := by
  rw [audiencesFor]
  induction t.byIssuer with
  | nil => rfl
  | cons e es ih =>
    obtain ⟨i, as⟩ := e
    by_cases h : i = issuer
    · subst h
      simp
    · rw [List.find?_cons_of_neg (by simpa using h), ih, List.lookup_cons,
        beq_false_of_ne (Ne.symm h)]

/-- Whoever's audience is accepted is trusted. -/
theorem mem_issuers_of_audience {t : IdpTrust} {issuer : Issuer} {a : Audience}
    (h : a ∈ t.audiencesFor issuer) : issuer ∈ t.issuers := by
  unfold audiencesFor at h
  cases hf : t.byIssuer.find? fun e => e.1 = issuer with
  | none => simp [hf] at h
  | some e =>
    have hi : e.1 = issuer := by simpa using List.find?_some hf
    exact hi ▸ List.mem_map_of_mem (List.mem_of_find?_eq_some hf)

end IdpTrust

/-- Looking up a key among entries that are kept, and changed, by their key. -/
theorem lookup_filterMap {β γ δ : Type} (es : List (Issuer × β)) (g : Issuer → Option γ)
    (h : γ → β → δ) (k : Issuer) :
    (es.filterMap fun e => (g e.1).map fun x => (e.1, h x e.2)).lookup k =
      (es.lookup k).bind fun v => (g k).map fun x => h x v := by
  induction es with
  | nil => rfl
  | cons e es ih =>
    obtain ⟨k', v⟩ := e
    by_cases hk : k = k'
    · subst hk
      cases hg : g k with
      | none => simp [hg, ih]
      | some x => simp [hg]
    · rw [List.lookup_cons, beq_false_of_ne hk]
      cases hg : g k' with
      | none => simpa [List.filterMap_cons, hg] using ih
      | some x => simpa [List.filterMap_cons, hg, List.lookup_cons, beq_false_of_ne hk] using ih

/-- What a host trusts is what the policy accepts and `host.json` keeps. -/
theorem mem_audiencesFor_trust {config : HostConfig} (hv : config.validateIdentity = .ok ())
    {policy : Policy} {issuer : Issuer} {a : Audience} :
    a ∈ (config.trust policy).audiencesFor issuer ↔ policy.Accepts issuer a ∧ config.Keeps issuer a := by
  have hnodup := (validateIssuers_eq_ok hv).1
  rw [IdpTrust.audiencesFor_of_lookup]
  unfold HostConfig.trust Policy.Accepts HostConfig.Keeps SortedMap.get?
  cases hid : config.identity with
  | none =>
    have hl := lookup_filterMap policy.issuers.entries (fun _ => some ()) (fun _ c => c.audiences)
      issuer
    simp only [Option.map_some, List.filterMap_eq_map'] at hl
    rw [hl]
    cases policy.issuers.entries.lookup issuer <;> simp
  | some listed =>
    rw [hid, Option.getD_some] at hnodup
    have hl := lookup_filterMap policy.issuers.entries (fun i => listed.find? fun t => t.issuer = i)
      (fun t c => if t.audiences = [] then c.audiences
        else c.audiences.filter fun a => t.audiences.contains a) issuer
    simp only [List.filterMap_map, Function.comp_def]
    rw [hl]
    cases policy.issuers.entries.lookup issuer with
    | none => simp
    | some c =>
      simp only [Option.bind_some, Option.some.injEq, exists_eq_left', forall_eq']
      cases hf : listed.find? fun t => t.issuer = issuer with
      | none =>
        have hno : ∀ t ∈ listed, t.issuer ≠ issuer := by simpa using hf
        simp only [Option.map_none, Option.getD_none, List.not_mem_nil, false_iff, not_and]
        rintro - ⟨t, ht, hi, -⟩
        exact hno t ht hi
      | some t =>
        obtain ⟨ht, hi⟩ := (find?_issuer hnodup).mp hf
        have huniq : (∃ t' ∈ listed, t'.issuer = issuer ∧ (t'.audiences = [] ∨ a ∈ t'.audiences)) ↔
            t.audiences = [] ∨ a ∈ t.audiences := by
          constructor
          · rintro ⟨t', ht', hi', hcase⟩
            rwa [List.inj_on_of_nodup_map hnodup ht ht' (hi.trans hi'.symm)]
          · exact fun hcase => ⟨t, ht, hi, hcase⟩
        rw [huniq, Option.map_some, Option.getD_some]
        split_ifs with hempty
        · simp [hempty]
        · simp [hempty, List.mem_filter]

/-! ## Verdicts -/

section

variable [Web] [Jose]

/-- A token carries an audience. -/
def Jws.Carries (jws : Jws) (a : Audience) : Prop :=
  jws.payload.get "aud" = some (.str a.toList) ∨ ∃ aud : List String,
    jws.payload.get "aud" = some (.arr (aud.map fun a => .str a.toList)) ∧ a ∈ aud

omit [Web] in
theorem unverifiedIssuer_eq_ok {token : IdToken} {issuer : Issuer} :
    unverifiedIssuer token = .ok issuer ↔
      ∃ jws, Jws.Reads token jws ∧ jws.payload.get "iss" = some (.str issuer.toList) := by
  simp only [unverifiedIssuer, bind_eq_ok, Jws.parse_eq_ok, strClaim_eq_ok]

omit [Web] in
theorem unverifiedKid_eq_ok {token : IdToken} {kid : Option String} :
    unverifiedKid token = .ok kid ↔ ∃ jws, Jws.Reads token jws ∧ jws.header.kid = kid := by
  simp only [unverifiedKid, bind_eq_ok, Jws.parse_eq_ok, pure_eq_ok]

theorem opened_eq_ok {claim : IdentityClaim} {trusted : List Issuer} {issuer : Issuer}
    {kid : Option String} : opened claim trusted = .ok (issuer, kid) ↔
      unverifiedIssuer claim.idToken = .ok issuer ∧ issuer ∈ trusted ∧
        unverifiedKid claim.idToken = .ok kid := by
  simp only [opened, bind_eq_ok, mapErr_eq_ok, ensure_eq_ok, exists_const, pure_eq_ok,
    Prod.mk.injEq]
  constructor
  · rintro ⟨i, hi, htrusted, k, hk, rfl, rfl⟩
    exact ⟨hi, htrusted, hk⟩
  · rintro ⟨hi, htrusted, hk⟩
    exact ⟨issuer, hi, htrusted, kid, hk, rfl, rfl⟩

theorem judged_eq_ok {claim : IdentityClaim} {issuer : Issuer} {audiences : List Audience}
    {now : Int64} {keys : Except Anyhow Jwks} {who : Principal} :
    judged claim issuer audiences now keys = .ok who ↔
      ∃ jwks, keys = .ok jwks ∧ verifyClaim claim issuer jwks audiences now = .ok who := by
  simp only [judged, bind_eq_ok, mapErr_eq_ok]
  refine exists_congr fun jwks => and_congr_right fun _ => ?_
  split
  · rename_i h
    rw [h]
    split <;> simp
  · rw [mapErr_eq_ok]

/-- A token is accepted when its keys' issuer is its own, and it is valid for the audiences
accepted from that issuer. -/
theorem verify_eq_ok {trust : IdpTrust} {claim : IdentityClaim} {now : Int64}
    {keys : Issuer → Option String → Except Anyhow Jwks} {who : Principal} :
    KeyFetcher.verify trust claim now keys = .ok who ↔ ∃ jws jwks, Jws.Reads claim.idToken jws ∧
      keys who.issuer jws.header.kid = .ok jwks ∧
      jws.Valid claim.node who.issuer jwks (trust.audiencesFor who.issuer) now who.notAfter ∧
      jws.payload.Names who.issuer who := by
  simp only [KeyFetcher.verify, bind_eq_ok, Prod.exists, opened_eq_ok, judged_eq_ok,
    verifyClaim_eq_ok]
  constructor
  · rintro ⟨issuer, kid, ⟨hissuer, htrusted, hkid⟩, jwks, hkeys, jws, hreads, hvalid, hnames⟩
    obtain rfl : who.issuer = issuer := hnames.issued
    obtain ⟨jws', hreads', rfl⟩ := unverifiedKid_eq_ok.mp hkid
    obtain rfl := hreads.unique hreads'
    rw [IdpTrust.audiencesForClaim, hissuer] at hvalid
    exact ⟨jws, jwks, hreads, hkeys, hvalid, hnames⟩
  · rintro ⟨jws, jwks, hreads, hkeys, hvalid, hnames⟩
    have hissuer : unverifiedIssuer claim.idToken = .ok who.issuer :=
      unverifiedIssuer_eq_ok.mpr ⟨jws, hreads, hvalid.iss⟩
    obtain ⟨a, ha, -⟩ := hvalid.aud
    refine ⟨who.issuer, jws.header.kid, ⟨hissuer, IdpTrust.mem_issuers_of_audience ha,
      unverifiedKid_eq_ok.mpr ⟨jws, hreads, rfl⟩⟩, jwks, hkeys, jws, hreads, ?_, hnames⟩
    rw [IdpTrust.audiencesForClaim, hissuer]
    exact hvalid

omit [Web] in
theorem Jws.Valid.mono {node : NodeId} {issuer : Issuer} {jwks : Jwks}
    {audiences more : List Audience} {now exp : Int64} {jws : Jws}
    (h : jws.Valid node issuer jwks audiences now exp) (hsub : audiences ⊆ more) :
    jws.Valid node issuer jwks more now exp :=
  { h with aud := h.aud.imp fun _ ⟨ha, hcarries⟩ => ⟨hsub ha, hcarries⟩ }

/-- Narrowing more accepts less. -/
theorem verify_of_narrows {narrower config : HostConfig} (h : narrower.Narrows config)
    (hn : narrower.validateIdentity = .ok ()) (hc : config.validateIdentity = .ok ())
    {policy : Policy} {claim : IdentityClaim} {now : Int64}
    {keys : Issuer → Option String → Except Anyhow Jwks} {who : Principal}
    (hv : KeyFetcher.verify (narrower.trust policy) claim now keys = .ok who) :
    KeyFetcher.verify (config.trust policy) claim now keys = .ok who := by
  obtain ⟨jws, jwks, hreads, hkeys, hvalid, hnames⟩ := verify_eq_ok.mp hv
  refine verify_eq_ok.mpr ⟨jws, jwks, hreads, hkeys, hvalid.mono fun a ha => ?_, hnames⟩
  obtain ⟨haccepts, hkeeps⟩ := (mem_audiencesFor_trust hn).mp ha
  exact (mem_audiencesFor_trust hc).mpr ⟨haccepts, h.keeps hkeeps⟩

/-! ## Where keys come from -/

omit [Jose] in
theorem issuer_of_discovered {issuer : Issuer} {url : Web.Url} {response : Response} {doc : Discovery}
    (h : discovered issuer url response = .ok doc) : doc.issuer = issuer := by
  simp only [discovered, bind_eq_ok, ensure_eq_ok, exists_const, pure_eq_ok] at h
  obtain ⟨-, -, doc', -, hissuer, -, -, -, -, -, -, rfl⟩ := h
  exact hissuer

namespace KeyFetcher

variable {ι : Type} [DecidableEq ι] {es : List (KeyEvent ι)} {f g : KeyFetcher ι} {e : KeyEvent ι}

section

variable (es)

/-- In the run, verification `i` came by the event `e` while it was at a stage. -/
def Came (e : KeyEvent ι) (i : ι) (stage : VerifyStage) : Prop :=
  ∃ es₁ es₂ u c, es = es₁ ++ e :: es₂ ∧ run step new es₁ = some u ∧ u.calls i = some c ∧
    c.stage = stage

/-- The issuer's own discovery URL answered this document, and it names the issuer. -/
def DocFor (issuer : Issuer) (doc : Discovery) : Prop :=
  ∃ i response url, Came es (.document i response) i (.awaitsDoc issuer url) ∧
    discoveryUrl issuer = .ok url ∧ discovered issuer url response = .ok doc ∧ doc.issuer = issuer

/-- The key set of the issuer's discovery document: what its `jwks_uri` answered. -/
def KeysFor (issuer : Issuer) (jwks : Jwks) : Prop :=
  ∃ doc i response ttl, DocFor es issuer doc ∧
    Came es (.keySet i response) i (.awaitsKeys issuer doc) ∧
    fetchedKeys doc response = .ok (jwks, ttl)

/-- What is so of a verification at its stage. -/
def Stands (c : VerifyCall) : VerifyStage → Prop
  | .keys issuer kid => opened c.claim c.trust.issuers = .ok (issuer, kid)
  | .lacks issuer jwks =>
    (∃ kid, opened c.claim c.trust.issuers = .ok (issuer, kid)) ∧ KeysFor es issuer jwks
  | .mayFetch issuer | .discovers issuer =>
    ∃ kid, opened c.claim c.trust.issuers = .ok (issuer, kid)
  | .awaitsDoc issuer url =>
    (∃ kid, opened c.claim c.trust.issuers = .ok (issuer, kid)) ∧ discoveryUrl issuer = .ok url
  | .awaitsKeys issuer doc =>
    (∃ kid, opened c.claim c.trust.issuers = .ok (issuer, kid)) ∧ DocFor es issuer doc
  | .ends issuer result =>
    (∃ kid, opened c.claim c.trust.issuers = .ok (issuer, kid)) ∧
      ∀ jwks, result = .ok jwks → KeysFor es issuer jwks
  | .done verdict => ∃ keys, verdict = verify c.trust c.claim c.now (fun _ _ => keys) ∧
      ∀ who jwks, verdict = .ok who → keys = .ok jwks → KeysFor es who.issuer jwks

/-- What is so after every event. -/
structure Good (f : KeyFetcher ι) : Prop where
  keys : ∀ issuer k, f.keys issuer = some k → KeysFor es issuer k.jwks
  discovery : ∀ issuer doc, f.discovery issuer = some doc → DocFor es issuer doc
  calls : ∀ i c, f.calls i = some c → Stands es c c.stage

end

omit [Jose] in
theorem calls_goes {i j : ι} {c : VerifyCall} :
    (f.goes i c).calls j = if j = i then some c else f.calls j :=
  Function.update_apply ..

theorem Came.append {i : ι} {stage : VerifyStage} {e' : KeyEvent ι} (h : Came es e i stage) :
    Came (es ++ [e']) e i stage := by
  obtain ⟨es₁, es₂, u, c, rfl, hu, hc, hs⟩ := h
  exact ⟨es₁, es₂ ++ [e'], u, c, by simp, hu, hc, hs⟩

theorem DocFor.append {issuer : Issuer} {doc : Discovery} (h : DocFor es issuer doc) :
    DocFor (es ++ [e]) issuer doc := by
  obtain ⟨i, response, url, hcame, hrest⟩ := h
  exact ⟨i, response, url, hcame.append, hrest⟩

theorem KeysFor.append {issuer : Issuer} {jwks : Jwks} (h : KeysFor es issuer jwks) :
    KeysFor (es ++ [e]) issuer jwks := by
  obtain ⟨doc, i, response, ttl, hdoc, hcame, hf⟩ := h
  exact ⟨doc, i, response, ttl, hdoc.append, hcame.append, hf⟩

theorem Stands.append {c : VerifyCall} {stage : VerifyStage} (h : Stands es c stage) :
    Stands (es ++ [e]) c stage := by
  unfold Stands at h ⊢
  split
  · exact h
  · exact ⟨h.1, h.2.append⟩
  · exact h
  · exact h
  · exact h
  · exact ⟨h.1, h.2.append⟩
  · exact ⟨h.1, fun jwks hr => (h.2 jwks hr).append⟩
  · obtain ⟨keys, hverdict, hkeys⟩ := h
    exact ⟨keys, hverdict, fun who jwks hw hk => (hkeys who jwks hw hk).append⟩

/-- Once `keys` answers, the verdict is that of those keys. -/
theorem stands_answered {c : VerifyCall} {issuer : Issuer} {keys : Except Anyhow Jwks}
    (ho : ∃ kid, opened c.claim c.trust.issuers = .ok (issuer, kid))
    (hk : ∀ jwks, keys = .ok jwks → KeysFor es issuer jwks) :
    Stands es (c.answered issuer keys) (c.answered issuer keys).stage := by
  obtain ⟨kid, ho⟩ := ho
  refine ⟨keys, ?_, fun who jwks hw hj => ?_⟩
  · simp only [verify, VerifyCall.answered, VerifyCall.goes, ho, ok_bind]
  · obtain ⟨jwks', -, hclaim⟩ := judged_eq_ok.mp hw
    obtain ⟨jws, -, -, hnames⟩ := verifyClaim_eq_ok.mp hclaim
    rw [hnames.issued]
    exact hk jwks hj

/-- A verification moves on, and what is kept besides comes from its issuer. -/
theorem Good.goes (h : Good es f) {i : ι} {c : VerifyCall}
    (hkeys : ∀ issuer k, g.keys issuer = some k →
      f.keys issuer = some k ∨ KeysFor (es ++ [e]) issuer k.jwks)
    (hdoc : ∀ issuer doc, g.discovery issuer = some doc →
      f.discovery issuer = some doc ∨ DocFor (es ++ [e]) issuer doc)
    (hcalls : g.calls = (f.goes i c).calls) (hc : Stands (es ++ [e]) c c.stage) :
    Good (es ++ [e]) g where
  keys issuer k hk := by
    rcases hkeys issuer k hk with hold | hnew
    · exact (h.keys issuer k hold).append
    · exact hnew
  discovery issuer doc hd := by
    rcases hdoc issuer doc hd with hold | hnew
    · exact (h.discovery issuer doc hold).append
    · exact hnew
  calls j d hj := by
    rw [hcalls, calls_goes] at hj
    split_ifs at hj
    · cases hj
      exact hc
    · exact (h.calls j d hj).append

/-- A verification moves on, and nothing else is kept. -/
theorem Good.moves (h : Good es f) {i : ι} {c : VerifyCall} (hkeys : g.keys = f.keys)
    (hdoc : g.discovery = f.discovery) (hcalls : g.calls = (f.goes i c).calls)
    (hc : Stands (es ++ [e]) c c.stage) : Good (es ++ [e]) g :=
  h.goes (fun _ _ hk => .inl (hkeys ▸ hk)) (fun _ _ hd => .inl (hdoc ▸ hd)) hcalls hc

theorem Good.step (h : Good es f) (hrun : run step new es = some f) (hs : f.step e = some g) :
    Good (es ++ [e]) g := by
  have hstands : ∀ {i : ι} {c : VerifyCall}, f.calls i = some c → Stands (es ++ [e]) c c.stage :=
    fun hi => (h.calls _ _ hi).append
  cases e with
  | verify i trust claim now =>
    simp only [KeyFetcher.step] at hs
    split at hs
    · cases hs
    · cases hs
      refine h.moves rfl rfl rfl ?_
      split
      · rename_i e ho
        refine ⟨.error [], ?_, nofun⟩
        simp only [verify, ho, error_bind]
      · rename_i ho
        exact ho
  | cached i =>
    simp only [KeyFetcher.step] at hs
    split at hs
    · rename_i issuer kid hi
      have ho : ∃ kid, opened _ _ = .ok (issuer, kid) := ⟨kid, hstands hi⟩
      split at hs
      · rename_i k hk
        have hkeys := h.keys _ k (Option.filter_eq_some_iff.mp hk).1
        split_ifs at hs
        · cases hs
          exact h.moves rfl rfl rfl (stands_answered ho fun jwks hj => Except.ok.inj hj ▸ hkeys.append)
        · cases hs
          exact h.moves rfl rfl rfl ⟨ho, hkeys.append⟩
      · cases hs
        exact h.moves rfl rfl rfl ho
    · cases hs
  | force i =>
    simp only [KeyFetcher.step] at hs
    split at hs
    · rename_i hi
      obtain ⟨ho, hkeys⟩ := hstands hi
      split_ifs at hs
      · cases hs
        exact h.moves rfl rfl rfl (stands_answered ho fun jwks hj => Except.ok.inj hj ▸ hkeys)
      · cases hs
        exact h.moves rfl rfl rfl ho
    · cases hs
  | tries i =>
    simp only [KeyFetcher.step] at hs
    split at hs
    · rename_i hi
      have ho := hstands hi
      split at hs
      · cases hs
        exact h.moves rfl rfl rfl (stands_answered ho nofun)
      · cases hs
        exact h.moves rfl rfl rfl ho
    · cases hs
  | discover i =>
    simp only [KeyFetcher.step] at hs
    split at hs
    · rename_i hi
      have ho := hstands hi
      split at hs
      · rename_i hd
        cases hs
        exact h.moves rfl rfl rfl ⟨ho, (h.discovery _ _ hd).append⟩
      · split at hs
        · rename_i hurl
          cases hs
          exact h.moves rfl rfl rfl ⟨ho, hurl⟩
        · cases hs
          exact h.moves rfl rfl rfl ⟨ho, nofun⟩
    · cases hs
  | document i response =>
    simp only [KeyFetcher.step] at hs
    split at hs
    · rename_i issuer url hi
      obtain ⟨ho, hurl⟩ := hstands hi
      split at hs
      · rename_i doc hd
        cases hs
        have hdoc : DocFor (es ++ [.document i response]) issuer doc :=
          ⟨i, response, url, ⟨es, [], f, _, rfl, hrun, hi, rfl⟩, hurl, hd, issuer_of_discovered hd⟩
        refine h.goes (fun _ _ hk => .inl hk) (fun issuer' doc' hd' => ?_) rfl ⟨ho, hdoc⟩
        simp only [Function.update_apply] at hd'
        split_ifs at hd' with hi'
        · cases hd'
          exact .inr (hi' ▸ hdoc)
        · exact .inl hd'
      · cases hs
        exact h.moves rfl rfl rfl ⟨ho, nofun⟩
    · cases hs
  | keySet i response =>
    simp only [KeyFetcher.step] at hs
    split at hs
    · rename_i issuer doc hi
      obtain ⟨ho, hdoc⟩ := hstands hi
      split at hs
      · rename_i jwks ttl hf
        cases hs
        have hkeys : KeysFor (es ++ [.keySet i response]) issuer jwks :=
          ⟨doc, i, response, ttl, hdoc, ⟨es, [], f, _, rfl, hrun, hi, rfl⟩, hf⟩
        refine h.goes (fun issuer' k hk => ?_) (fun _ _ hd => .inl hd) rfl
          ⟨ho, fun jwks hj => Except.ok.inj hj ▸ hkeys⟩
        simp only [Function.update_apply] at hk
        split_ifs at hk with hi'
        · cases hk
          exact .inr (hi' ▸ hkeys)
        · exact .inl hk
      · cases hs
        exact h.moves rfl rfl rfl ⟨ho, nofun⟩
    · cases hs
  | settle i =>
    simp only [KeyFetcher.step] at hs
    split at hs
    · rename_i hi
      obtain ⟨ho, hkeys⟩ := hstands hi
      cases hs
      exact h.moves rfl rfl rfl (stands_answered ho hkeys)
    · cases hs

theorem good_of_run (hrun : run step new es = some f) : Good es f := by
  refine run_induction (motive := fun es f => Good es f) ?_
    (fun es e f g hf h hs => h.step hf hs) hrun
  refine ⟨fun _ _ hk => ?_, fun _ _ hd => ?_, fun _ _ hi => ?_⟩
  · cases hk
  · cases hd
  · cases hi

end KeyFetcher

/-- Trust is never widened. A token that a host accepts, in any run of its fetcher, carries an
audience the policy accepts from the token's own issuer and `host.json` keeps, and is signed with a
key of that issuer's; to narrow more accepts less; and a directory accepts what a host that does not
narrow does. -/
theorem trust_kept (config : HostConfig) (hvalid : config.validateIdentity = .ok ())
    (policy : Policy) (claim : IdentityClaim) (now : Int64) :
    (∀ (ι : Type) [DecidableEq ι] (es : List (KeyEvent ι)) (f : KeyFetcher ι) (i : ι) (who : Principal),
      run KeyFetcher.step .new es = some f →
      f.calls i = some ⟨config.trust policy, claim, now, .done (.ok who)⟩ →
      ∃ jws jwks, Jws.Reads claim.idToken jws ∧
        jws.payload.get "iss" = some (.str who.issuer.toList) ∧
        (∃ a, jws.Carries a ∧ policy.Accepts who.issuer a ∧ config.Keeps who.issuer a) ∧
        KeyFetcher.KeysFor es who.issuer jwks ∧ (∃ k ∈ jwks.keys, jws.SignedBy k) ∧
        KeyFetcher.verify (config.trust policy) claim now (fun _ _ => .ok jwks) = .ok who) ∧
    (∀ narrower : HostConfig, narrower.validateIdentity = .ok () → narrower.Narrows config →
      ∀ keys who, KeyFetcher.verify (narrower.trust policy) claim now keys = .ok who →
        KeyFetcher.verify (config.trust policy) claim now keys = .ok who) ∧
    ∀ services keys, Directory.principal claim.node claim.idToken policy now keys =
      (KeyFetcher.verify (HostConfig.trust ⟨none, services⟩ policy) claim now keys).toOption := by
  refine ⟨fun ι _ es f i who hrun hc => ?_,
    fun narrower hn hnarrows keys who hv => verify_of_narrows hnarrows hn hvalid hv,
    fun services keys => rfl⟩
  obtain ⟨keys, hverdict, hkeys⟩ := (KeyFetcher.good_of_run hrun).calls i _ hc
  obtain ⟨jws, jwks, hreads, rfl, hv, -⟩ := verify_eq_ok.mp hverdict.symm
  obtain ⟨a, ha, hcarries⟩ := hv.aud
  exact ⟨jws, jwks, hreads, hv.iss, ⟨a, hcarries, (mem_audiencesFor_trust hvalid).mp ha⟩,
    hkeys who jwks rfl rfl, hv.key, hverdict.symm⟩

end

/-! ## One verification -/

/-- A first verification fetches its issuer's keys, and answers with them. -/
theorem run_fetch [Web] [Jose] {trust : IdpTrust} {claim : IdentityClaim} {now ttl : Int64}
    {issuer : Issuer} {kid : Option String} {url : Web.Url} {doc : Discovery} {jwks : Jwks}
    {who : Principal} {document keySet : Response}
    (ho : opened claim trust.issuers = .ok (issuer, kid)) (hurl : discoveryUrl issuer = .ok url)
    (hdoc : discovered issuer url document = .ok doc)
    (hkeys : fetchedKeys doc keySet = .ok (jwks, ttl))
    (hv : KeyFetcher.verify trust claim now (fun _ _ => .ok jwks) = .ok who) :
    ∃ f : KeyFetcher Unit, run KeyFetcher.step .new [.verify () trust claim now, .cached (), .tries (),
      .discover (), .document () document, .keySet () keySet, .settle ()] = some f ∧
      f.calls () = some ⟨trust, claim, now, .done (.ok who)⟩ := by
  simp only [KeyFetcher.verify, ho, ok_bind] at hv
  simp only [run, KeyFetcher.step, KeyFetcher.new, KeyFetcher.goes, VerifyCall.goes,
    VerifyCall.answered, ho, hurl, hdoc, hkeys, hv, Function.update_self, Option.filter_none,
    Option.bind_some]
  exact ⟨_, rfl, rfl⟩

section Sample

attribute [local instance] Crypto.plain Jose.plain

/-- URLs as the texts they are, all of them secure. -/
@[reducible] def Web.plain : Web where
  Url := String
  parse := .ok
  scheme _ := "https"
  host _ := none
  display := id
  quoted := id
  serdeError _ := ""
  utf8Error _ := ""

attribute [local instance] Web.plain

/-- A policy that trusts one issuer, with two audiences. -/
def trustPolicy : Policy :=
  { Policy.new (Bytes.fill 32 1) with issuers := ⟨[("idp", ⟨"cli", ["cli", "web"]⟩)], by simp⟩ }

/-- A host that keeps one of them. -/
def trustConfig : HostConfig := ⟨some [⟨"idp", ["cli"]⟩], ∅⟩

def sampleDocument : Json :=
  .obj [("issuer", toJson "idp"), ("authorization_endpoint", toJson "a"),
    ("token_endpoint", toJson "t"), ("jwks_uri", toJson "j")]

def sampleKeySet : Json :=
  .obj [("keys", .arr [.obj [("kty", toJson "EC"), ("crv", toJson "P-256"),
    ("x", toJson (String.ofList (Base64.encode (Bytes.fill 32 7).toList))),
    ("y", toJson (String.ofList (Base64.encode (Bytes.fill 32 8).toList)))]])]

def sampleDoc : Discovery := ⟨"idp", "a", "t", "j"⟩

/-- What a small body that is the text of a value answers. -/
theorem received_plain {url : String} {body : List UInt8} (h : ¬body.length > MAX_DOC_BYTES) :
    received url (.ok (body, none)) = .ok (body, none) := by
  simp only [received, ok_bind, ensure_of h]
  rfl

theorem discovered_plain {body : List UInt8} {j : Json} (doc : Discovery)
    (h : ¬body.length > MAX_DOC_BYTES) (hj : JsonOf body j) (hdoc : Discovery.ofJson j = some doc) {url : String} :
    discovered doc.issuer url (.ok (body, none)) = .ok doc := by
  obtain ⟨cs, hcs, hparse⟩ := hj
  simp only [discovered, received_plain h, ok_bind, hcs, hparse, hdoc, Option.bind_some, orError_some,
    ensure_of trivial]
  rfl

theorem fetchedKeys_plain {body : List UInt8} {j : Json} (h : ¬body.length > MAX_DOC_BYTES)
    (hj : JsonOf body j) {jwks : Jwks} (hkeys : Jwks.ofJson j = some jwks) {doc : Discovery} :
    fetchedKeys doc (.ok (body, none)) = .ok (jwks, 3600) := by
  obtain ⟨cs, hcs, hparse⟩ := hj
  simp only [fetchedKeys, received_plain h, ok_bind, hcs, hparse, hkeys, Option.bind_some, orError_some]
  rfl

theorem discovered_sampleDocument : discovered "idp" "idp/.well-known/openid-configuration"
    (.ok (utf8 sampleDocument.compact, none)) = .ok sampleDoc :=
  discovered_plain sampleDoc (by decide +kernel) (jsonOf_compact sampleDocument) rfl

theorem fetchedKeys_sampleKeySet :
    fetchedKeys sampleDoc (.ok (utf8 sampleKeySet.compact, none)) = .ok (⟨[sampleJwk]⟩, 3600) :=
  fetchedKeys_plain (by decide +kernel) (jsonOf_compact sampleKeySet) rfl

/-- A token of node 4's, with everything a verifier asks for. -/
def trustClaim : IdentityClaim := ⟨Bytes.fill 32 4, sampleToken (sampleClaims ++ [("sub", toJson "7")])⟩

def trustPrincipal : Principal := ⟨"idp", "7", none, none, [], 100⟩

theorem reads_trustClaim :
    Jws.Reads trustClaim.idToken (sampleJws (sampleClaims ++ [("sub", toJson "7")])) :=
  reads_sampleToken rfl

theorem verify_trustClaim : KeyFetcher.verify (trustConfig.trust trustPolicy) trustClaim 100
    (fun _ _ => .ok ⟨[sampleJwk]⟩) = .ok trustPrincipal := by
  refine verify_eq_ok.mpr ⟨_, _, reads_trustClaim, rfl, ?_, ?_⟩
  · apply valid_sampleJws
    intro name hname
    simp only [List.mem_cons, List.not_mem_nil, or_false] at hname
    rcases hname with rfl | rfl | rfl | rfl | rfl <;> rfl
  · have hverified : (sampleJws (sampleClaims ++ [("sub", toJson "7")])).payload.get
        "email_verified" = none := rfl
    have hhd : (sampleJws (sampleClaims ++ [("sub", toJson "7")])).payload.get "hd" = none := rfl
    refine ⟨rfl, rfl, fun email => ?_, fun org => ?_, rfl⟩
    · rw [hverified]
      simp [trustPrincipal]
    · rw [hhd]
      simp [trustPrincipal]

theorem opened_trustClaim :
    opened trustClaim (trustConfig.trust trustPolicy).issuers = .ok ("idp", none) := by
  refine opened_eq_ok.mpr ⟨?_, by decide, unverifiedKid_eq_ok.mpr ⟨_, reads_trustClaim, rfl⟩⟩
  exact unverifiedIssuer_eq_ok.mpr ⟨_, reads_trustClaim, rfl⟩

/-- One verification, which fetches its issuer's keys. -/
def sampleFetch : List (KeyEvent Unit) :=
  [.verify () (trustConfig.trust trustPolicy) trustClaim 100, .cached (), .tries (), .discover (),
    .document () (.ok (utf8 sampleDocument.compact, none)),
    .keySet () (.ok (utf8 sampleKeySet.compact, none)), .settle ()]

theorem run_sampleFetch : ∃ f : KeyFetcher Unit, run KeyFetcher.step .new sampleFetch = some f ∧
    f.calls () = some ⟨trustConfig.trust trustPolicy, trustClaim, 100, .done (.ok trustPrincipal)⟩ :=
  run_fetch opened_trustClaim rfl discovered_sampleDocument fetchedKeys_sampleKeySet
    verify_trustClaim

/-- A host that keeps one of an issuer's audiences accepts a token for it. -/
theorem trust_kept_sample : ∃ (f : KeyFetcher Unit) (jws : Jws) (jwks : Jwks),
    run KeyFetcher.step .new sampleFetch = some f ∧ Jws.Reads trustClaim.idToken jws ∧
      (∃ a, jws.Carries a ∧ trustPolicy.Accepts "idp" a ∧ trustConfig.Keeps "idp" a) ∧
      KeyFetcher.KeysFor sampleFetch "idp" jwks := by
  obtain ⟨f, hrun, hcall⟩ := run_sampleFetch
  obtain ⟨jws, jwks, hreads, -, haud, hkeys, -⟩ :=
    (trust_kept trustConfig (by decide) trustPolicy trustClaim 100).1 Unit _ f () _ hrun hcall
  exact ⟨f, jws, jwks, hrun, hreads, haud, hkeys⟩

end Sample

end Wires
