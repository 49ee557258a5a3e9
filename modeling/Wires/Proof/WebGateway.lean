import Wires.Proof.McpHttp
import Wires.Proof.Tokens
import Wires.Proof.Views

/-!
# Whom a web user's call is made as

Sign-ins, asks for views and requests to `/mcp` interleave. A session in the
store comes of a sign-in that was carried through in one browser, or of the file
(`Owned`); what an ask answers was fetched with the ID token of the session it
was begun for, whoever else asked meanwhile (`Own`); so a call of a request is
made on a view of its own user, whose token it presented (`calls_own`), and a
sign-in is given a code only on a view of who signed in (`codes_own`).
-/

namespace Wires

open McpHttp

/-! ## Sessions -/

namespace OAuth

section

variable [Web] [Origin] [Jose] {β ι : Type} [DecidableEq β] [DecidableEq ι] {gw : Gateway}
  {es fs : List (OAuthEvent β ι)} {e : OAuthEvent β ι} {s t : OAuth β ι} {log log' : List (Deed β)}
  {session : Session}

/-- A session of a sign-in that began, was confirmed, came back and was verified in one browser. -/
def SignedIn (gw : Gateway) (es : List (OAuthEvent β ι)) (log : List (Deed β)) (session : Session) :
    Prop :=
  ∃ b id a upstream login, Began gw es b id a ∧ LoggedIn gw es a login ∧
    session = sessionOf a login ∧ Did log b id a (signIn gw b id a upstream login)

omit [DecidableEq β] [DecidableEq ι] in
theorem SignedIn.mono (h : SignedIn gw es log session) (hlog : log.Sublist log') :
    SignedIn gw (es ++ fs) log' session := by
  obtain ⟨b, id, a, upstream, login, hbegan, hlogin, heq, hdid⟩ := h
  exact ⟨b, id, a, upstream, login, hbegan.append, hlogin.append, heq, hdid.mono hlog⟩

/-- A step adds to what was done. -/
theorem log_of_steps (hstep : Steps gw s e t) : s.log.Sublist t.log := by
  cases hstep with
  | refused _ => exact List.Sublist.refl _
  | began _ _ _ => exact List.sublist_append_left _ _
  | confirms _ _ _ _ => exact List.Sublist.refl _
  | confirmed _ => exact List.sublist_append_left _ _
  | lapses _ => exact List.Sublist.refl _
  | returned _ _ _ _ => exact List.sublist_append_left _ _
  | signedIn _ _ => exact List.sublist_append_left _ _
  | coded _ _ _ => exact List.sublist_append_left _ _
  | redeemed _ _ => exact List.sublist_append_left _ _

/-- A request that waits for the view, or was answered, goes on waiting or is answered. -/
theorem kept_of_steps (hstep : Steps gw s e t) {i : ι} {stage : OAuthStage β}
    (hi : s.requests i = some stage)
    (hs : (∃ b id a session now, stage = .viewing b id a session now) ∨ ∃ reply, stage = .done reply) :
    t.requests i = some stage ∨ ∃ reply, t.requests i = some (.done reply) := by
  have hdone : ∀ {j : ι} {reply : Reply},
      Function.update s.requests j (some (.done reply)) i = some stage ∨
        ∃ reply', Function.update s.requests j (some (.done reply)) i = some (.done reply') := by
    intro j reply
    rw [Function.update_apply]
    split_ifs
    · exact .inr ⟨reply, rfl⟩
    · exact .inl hi
  have hother : ∀ {j : ι} {stage' : OAuthStage β}, s.requests j ≠ some stage →
      Function.update s.requests j (some stage') i = some stage := by
    intro j stage' hj
    rw [Function.update_of_ne, hi]
    rintro rfl
    exact hj hi
  cases hstep with
  | refused _ => exact hdone
  | began _ _ _ => exact hdone
  | confirms hidle _ _ _ => exact .inl (hother (by rw [hidle]; simp))
  | confirmed _ => exact hdone
  | lapses _ => exact hdone
  | returned hidle _ _ _ => exact .inl (hother (by rw [hidle]; simp))
  | signedIn hstage _ =>
    refine .inl (hother ?_)
    rw [hstage]
    rcases hs with ⟨b, id, a, session, now, rfl⟩ | ⟨reply, rfl⟩ <;> simp
  | coded _ _ _ => exact hdone
  | redeemed _ _ => exact hdone

omit [Jose] in
/-- Presenting a code puts in the session of its grant, if any. -/
theorem redeem_session {store : Store} {code : String} {f : Form} {now : Int64}
    {drawn : Except Anyhow String} {persisted : Bool} {h : String}
    (hget : (redeem gw store code f now drawn persisted).1.tokens.get? h = some session) :
    store.tokens.get? h = some session ∨ ∃ g, store.codes.get? code = some g ∧ session = g.session := by
  unfold redeem Store.redeemCode at hget
  split at hget
  · rename_i hcode
    obtain ⟨rfl, -⟩ := Prod.mk.inj hcode
    exact .inl hget
  · rename_i store' g hcode
    obtain ⟨rfl, hheld⟩ := Prod.mk.inj hcode
    have hg := (Option.filter_eq_some_iff.mp hheld).1
    split at hget
    · exact .inl hget
    · split at hget
      · exact .inl hget
      · rename_i token
        have htokens : ((store.tokens.retain fun s => s.notAfter > now).insert (tokenHash token)
            g.session).get? h = some session := by
          dsimp only at hget
          split_ifs at hget <;> exact hget
        rw [SortedMap.get?_insert] at htokens
        split_ifs at htokens
        · exact .inr ⟨g, hg, (Option.some.inj htokens).symm⟩
        · exact .inl (SortedMap.get?_of_retain htokens)

/-- A session that was in the file, or of a sign-in. -/
def Owned (gw : Gateway) (tokens : SortedMap String Session) (es : List (OAuthEvent β ι))
    (log : List (Deed β)) (session : Session) : Prop :=
  (∃ h, tokens.get? h = some session) ∨ SignedIn gw es log session

omit [DecidableEq β] [DecidableEq ι] in
theorem Owned.mono {tokens : SortedMap String Session} (h : Owned gw tokens es log session)
    (hlog : log.Sublist log') : Owned gw tokens (es ++ fs) log' session :=
  h.imp id fun h => h.mono hlog

/-- Each session in the store is owned. -/
def SessionsOwned (gw : Gateway) (tokens : SortedMap String Session) (es : List (OAuthEvent β ι))
    (s : OAuth β ι) : Prop :=
  ∀ h session, s.store.tokens.get? h = some session → Owned gw tokens es s.log session

theorem SessionsOwned.of_steps {tokens : SortedMap String Session} (h : SessionsOwned gw tokens es s)
    (hr : Recorded gw es s.log) (hb : Backed gw es s.log s) (hstep : Steps gw s e t) :
    SessionsOwned gw tokens (es ++ [e]) t := by
  have hlog := log_of_steps hstep
  have hsame : t.store.tokens = s.store.tokens → SessionsOwned gw tokens (es ++ [e]) t := by
    intro heq k session hk
    rw [heq] at hk
    exact (h k session hk).mono hlog
  cases hstep with
  | refused _ => exact hsame rfl
  | @began i b q client verifier id now victims c a store hidle hasked hstore =>
    obtain ⟨pending, -, rfl⟩ := Option.map_eq_some_iff.mp hstore
    exact hsame rfl
  | confirms _ _ _ _ => exact hsame rfl
  | confirmed _ => exact hsame rfl
  | lapses _ => exact hsame rfl
  | returned _ _ _ _ => exact hsame rfl
  | signedIn _ _ => exact hsame rfl
  | @coded i b id a session now tools code victims store hstage hadmitted hstore =>
    obtain ⟨codes, -, rfl⟩ := Option.map_eq_some_iff.mp hstore
    exact hsame rfl
  | @redeemed i f now drawn persisted code hidle hcode =>
    intro k session hk
    rcases redeem_session hk with hold | ⟨g, hg, rfl⟩
    · exact (h k session hold).mono hlog
    · obtain ⟨b, id, a, upstream, login, issued, hlogin, rfl, hdid⟩ := hb.codes code g hg
      have hsigned : SignedIn gw es s.log (sessionOf a login) := by
        refine ⟨b, id, a, upstream, login, hr.began _ _ _ hdid.began, hlogin, rfl, ?_⟩
        exact (List.Sublist.cons_cons _ (List.sublist_append_left _ _)).trans hdid
      exact .inr (hsigned.mono hlog)

end

end OAuth

/-! ## Asks -/

namespace Asks

section

variable [Crypto] {root : NodeId} {ι : Type} [DecidableEq ι] {s t : Asks root ι} {e : AskEvent ι}
  {user : ι → Option IdToken} {given : IdToken → HeldView root → Prop}

/-- An ask is for its user's token: what it found held, and what it answers, was given for it. -/
def StageOf (given : IdToken → HeldView root → Prop) (user : Option IdToken) : AskStage root → Prop
  | .idle => True
  | .asks token _ goal | .fetches token _ goal _ _ =>
    user = some token ∧ ∀ v, goal = .request (some v) → given token v.held
  | .done (.ok held) => ∃ token, user = some token ∧ given token held
  | .done (.error _) => True

/-- Each token's view was given for it, and each ask is for its user's token. -/
structure Own (user : ι → Option IdToken) (given : IdToken → HeldView root → Prop)
    (s : Asks root ι) : Prop where
  held : ∀ token v, s.views.held token = some v → given token v.held
  stage : ∀ i, StageOf given (user i) (s.stage i)

omit [DecidableEq ι] in
theorem own_start (known : List NodeId) : Own user given (start known) where
  held token v h := by cases h
  stage i := trivial

omit [DecidableEq ι] in
theorem Own.mono (user' : ι → Option IdToken) (given' : IdToken → HeldView root → Prop)
    (h : Own user given s) (huser : ∀ i, s.stage i ≠ .idle → user' i = user i)
    (hgiven : ∀ token held, given token held → given' token held) : Own user' given' s where
  held token v hv := hgiven token _ (h.held token v hv)
  stage i := by
    have hi := h.stage i
    cases hs : s.stage i with
    | idle => trivial
    | asks token notAfter goal =>
      rw [hs] at hi
      rw [huser i (by rw [hs]; simp)]
      exact ⟨hi.1, fun v hv => hgiven _ _ (hi.2 v hv)⟩
    | fetches token notAfter goal base began =>
      rw [hs] at hi
      rw [huser i (by rw [hs]; simp)]
      exact ⟨hi.1, fun v hv => hgiven _ _ (hi.2 v hv)⟩
    | done result =>
      cases result with
      | error e => trivial
      | ok held =>
        rw [hs] at hi
        obtain ⟨token, hu, hg⟩ := hi
        rw [huser i (by rw [hs]; simp)]
        exact ⟨token, hu, hgiven _ _ hg⟩

/-- Ask `i` comes to a stage of its own, and the views are what was given. -/
theorem Own.goes (h : Own user given s) {i : ι} (stage : AskStage root) {views : Views root}
    {writes : IdToken → Nat} (hstage : StageOf given (user i) stage)
    (hviews : ∀ token v, views.held token = some v → given token v.held) :
    Own user given { s.goes i stage with views, writes } where
  held := hviews
  stage j := by
    show StageOf given (user j) (Function.update s.stage i stage j)
    rw [Function.update_apply]
    split_ifs with hj
    · rw [hj]
      exact hstage
    · exact h.stage j

omit [DecidableEq ι] in
theorem Own.cached (h : Own user given s) (token : IdToken) (now : Int64) :
    (∀ token' v, (s.views.cached token now).1.held token' = some v → given token' v.held) ∧
      ∀ v, (s.views.cached token now).2 = some v → given token v.held := by
  have hall : ∀ token' v, (s.views.cached token now).1.held token' = some v →
      given token' v.held := fun token' v hv =>
    h.held token' v (Option.filter_eq_some_iff.mp hv).1
  exact ⟨hall, fun v hv => hall token v hv⟩

theorem Own.step (h : Own user given s) (hs : s.step e = some t)
    (hview : ∀ i token notAfter now at_, e = .view i token notAfter now at_ → user i = some token)
    (hrefresh : ∀ i token notAfter, e = .refresh i token notAfter → user i = some token)
    (hanswer : ∀ i f at_ token notAfter goal base began held, e = .answer i f at_ →
      s.stage i = .fetches token notAfter goal base began → fetched s.views.known base f = .ok held →
      given token held) : Own user given t := by
  cases e with
  | refresh i token notAfter =>
    simp only [Asks.step] at hs
    split at hs
    · cases hs
      have hstage : StageOf given (user i) (.asks token notAfter .refresher : AskStage root) :=
        ⟨hrefresh i token notAfter rfl, fun v hv => by cases hv⟩
      exact h.goes _ hstage h.held
    · cases hs
  | view i token notAfter now at_ =>
    obtain ⟨hviews, hcached⟩ := h.cached token now
    have huser := hview i token notAfter now at_ rfl
    simp only [Asks.step] at hs
    split at hs
    · split at hs
      · rename_i v hv
        cases hs
        have hheld := hcached v (Option.filter_eq_some_iff.mp hv).1
        exact h.goes (.done (.ok v.held)) ⟨token, huser, hheld⟩ hviews
      · cases hs
        refine h.goes (.asks token notAfter (.request (s.views.cached token now).2))
          ⟨huser, fun v hv => ?_⟩ hviews
        exact hcached v (AskFor.request.inj hv)
    · cases hs
  | read i now =>
    simp only [Asks.step] at hs
    split at hs
    · rename_i token notAfter goal hi
      cases hs
      have hown := h.stage i
      rw [hi] at hown
      exact h.goes (.fetches token notAfter goal _ _) hown (h.cached token now).1
    · cases hs
  | answer i f at_ =>
    simp only [Asks.step] at hs
    split at hs
    · rename_i token notAfter goal base began hi
      cases hs
      have hown := h.stage i
      rw [hi] at hown
      obtain ⟨huser, hgoal⟩ := hown
      have hgot : ∀ held, fetched s.views.known base f = .ok held → given token held := fun held =>
        hanswer i f at_ token notAfter goal base began held rfl hi
      refine h.goes _ ?_ fun token' v hv => ?_
      · cases hr : fetched s.views.known base f with
        | ok held =>
          cases goal with
          | refresher => exact ⟨token, huser, hgot held hr⟩
          | request cached => exact ⟨token, huser, hgot held hr⟩
        | error why =>
          cases goal with
          | refresher => trivial
          | request cached =>
            unfold AskFor.answer
            dsimp only
            split_ifs
            · trivial
            · cases cached with
              | none => trivial
              | some v => exact ⟨token, huser, hgoal v rfl⟩
      · cases hr : fetched s.views.known base f with
        | ok held =>
          rw [hr] at hv
          change Function.update s.views.held token (some ⟨held, at_, notAfter⟩) token' = some v at hv
          rw [Function.update_apply] at hv
          split_ifs at hv with ht
          · cases hv
            rw [ht]
            exact hgot held hr
          · exact h.held token' v hv
        | error why =>
          rw [hr] at hv
          simp only [Views.answered] at hv
          split_ifs at hv
          · change Function.update s.views.held token none token' = some v at hv
            rw [Function.update_apply] at hv
            split_ifs at hv
            exact h.held token' v hv
          · exact h.held token' v hv
    · cases hs

end

end Asks

/-! ## The gateway's steps -/

/-- What passed the checks, of a request. -/
def PostStage.request? [Crypto] [Jaq] {root : NodeId} : PostStage root → Option Accepted
  | .refused _ => none
  | .accepted a | .waits a | .done a _ => some a

namespace WebGateway

section

variable [Crypto] [Web] [Jaq] [Origin] [Jose] {root : NodeId} {β ι ρ : Type} [DecidableEq β]
  [DecidableEq ι] [DecidableEq ρ] {gw : OAuth.Gateway} {origins : List String}
  {s s₀ t : WebGateway root β ι ρ} {e : WebGatewayEvent β ι ρ} {es fs : List (WebGatewayEvent β ι ρ)}

/-- What a step can do. -/
inductive Goes (gw : OAuth.Gateway) (origins : List String) (s : WebGateway root β ι ρ) :
    WebGatewayEvent β ι ρ → WebGateway root β ι ρ → Prop
  | oauth {e : OAuthEvent β ι} {oauth : OAuth β ι}
    (he : ∀ i tools code victims, e ≠ .viewed i tools code victims)
    (hstep : s.oauth.step gw e = some oauth) : Goes gw origins s (.oauth e) { s with oauth }
  | asks {r : ρ} {i : ι} {now began : Int64} {at_ : Nat} {b : β} {id : String} {a : OAuth.Authorization}
    {session : OAuth.Session} {asks : Asks root ρ}
    (hi : s.oauth.requests i = some (.viewing b id a session began)) (hidle : s.callbacks i = none)
    (hr : s.users r = none)
    (hstep : s.asks.step (.view r session.idToken session.notAfter now at_) = some asks) :
    Goes gw origins s (.asks r i now at_) { s with
      asks
      users := Function.update s.users r (some session)
      callbacks := Function.update s.callbacks i (some r) }
  | viewed {r : ρ} {i : ι} {result : Except Anyhow (HeldView root)} {code : Except Anyhow String}
    {victims : List String} {oauth : OAuth β ι} (hi : s.callbacks i = some r)
    (hr : s.asks.stage r = .done result)
    (hstep : s.oauth.step gw (.viewed i (result.map fun h => servicesIn h.view) code victims) =
      some oauth) : Goes gw origins s (.viewed i code victims) { s with oauth }
  | refused {r : ρ} {headers : Headers} {body : List UInt8} {now : Int64} {reply : HttpReply} :
    Goes gw origins s (.post r headers body now) (s.goes r (.refused reply))
  | accepted {r : ρ} {headers : Headers} {body : List UInt8} {now : Int64} {a : Accepted}
    (hr : accept gw origins s.oauth.store headers body now = .ok a) :
    Goes gw origins s (.post r headers body now) (s.goes r (.accepted a))
  | looks {r : ρ} {now : Int64} {at_ : Nat} {a : Accepted} {asks : Asks root ρ}
    (ha : s.posts r = some (.accepted a)) (hr : s.users r = none)
    (hstep : s.asks.step (.view r a.session.idToken a.session.notAfter now at_) = some asks) :
    Goes gw origins s (.looks r now at_) { s.goes r (.waits a) with
      asks
      users := Function.update s.users r (some a.session) }
  | posted {r : ρ} {a : Accepted} {result : Except Anyhow (HeldView root)}
    (ha : s.posts r = some (.waits a)) (hr : s.asks.stage r = .done result) :
    Goes gw origins s (.posted r) (s.goes r (.done a (a.posted result)))
  | refresh {r p : ρ} {session : OAuth.Session} {asks : Asks root ρ} (hr : s.users r = none)
    (hstep : s.asks.step (.refresh r session.idToken session.notAfter) = some asks) :
    Goes gw origins s (.refresh r p) { s with
      asks
      users := Function.update s.users r (some session) }
  | read {r : ρ} {now : Int64} {asks : Asks root ρ} (hstep : s.asks.step (.read r now) = some asks) :
    Goes gw origins s (.read r now) { s with asks }
  | answer {r : ρ} {f : Fetch} {at_ : Nat} {asks : Asks root ρ}
    (hstep : s.asks.step (.answer r f at_) = some asks) :
    Goes gw origins s (.answer r f at_) { s with asks }

omit [Origin] [Jose] [DecidableEq β] [DecidableEq ι] in
theorem begins_eq_some {r : ρ} {session : OAuth.Session} {e : AskEvent ρ}
    (h : s.begins r session e = some t) : s.users r = none ∧ ∃ asks, s.asks.step e = some asks ∧
      t = { s with asks, users := Function.update s.users r (some session) } := by
  unfold begins at h
  split_ifs at h with hr
  obtain ⟨asks, hasks, rfl⟩ := Option.map_eq_some_iff.mp h
  exact ⟨by simpa using hr, asks, hasks, rfl⟩

omit [Origin] [Jose] [DecidableEq β] [DecidableEq ι] [DecidableEq ρ] in
theorem result_eq_some {r : ρ} {result : Except Anyhow (HeldView root)}
    (h : s.result r = some result) : s.asks.stage r = .done result := by
  unfold WebGateway.result at h
  split at h
  · rename_i result' hr
    cases h
    exact hr
  · cases h

theorem goes_of_step (h : s.step gw origins e = some t) : Goes gw origins s e t := by
  cases e with
  | oauth e =>
    have hstep : (∀ i tools code victims, e ≠ .viewed i tools code victims) ∧
        (s.oauth.step gw e).map (fun oauth => { s with oauth }) = some t := by
      cases e with
      | viewed i tools code victims => cases h
      | _ => exact ⟨by simp, h⟩
    obtain ⟨oauth, hoauth, rfl⟩ := Option.map_eq_some_iff.mp hstep.2
    exact .oauth hstep.1 hoauth
  | asks r i now at_ =>
    simp only [step] at h
    split at h
    · rename_i hi hidle hr
      obtain ⟨u, hu, rfl⟩ := Option.map_eq_some_iff.mp h
      obtain ⟨hnone, asks, hasks, rfl⟩ := begins_eq_some hu
      exact .asks hi hidle hnone hasks
    · cases h
  | viewed i code victims =>
    simp only [step] at h
    split at h
    · rename_i result hresult
      obtain ⟨r, hi, hr⟩ := Option.bind_eq_some_iff.mp hresult
      obtain ⟨oauth, hoauth, rfl⟩ := Option.map_eq_some_iff.mp h
      exact .viewed hi (result_eq_some hr) hoauth
    · cases h
  | post r headers body now =>
    simp only [step] at h
    split at h
    · split at h
      · cases h
        exact .refused
      · rename_i a ha
        cases h
        exact .accepted ha
    · cases h
  | looks r now at_ =>
    simp only [step] at h
    split at h
    · rename_i a ha
      obtain ⟨u, hu, rfl⟩ := Option.map_eq_some_iff.mp h
      obtain ⟨hnone, asks, hasks, rfl⟩ := begins_eq_some hu
      exact .looks ha hnone hasks
    · cases h
  | posted r =>
    simp only [step] at h
    split at h
    · rename_i a result ha hr
      cases h
      exact .posted ha (result_eq_some hr)
    · cases h
  | refresh r p =>
    simp only [step] at h
    split at h
    · obtain ⟨hnone, asks, hasks, rfl⟩ := begins_eq_some h
      exact .refresh hnone hasks
    · cases h
  | read r now =>
    obtain ⟨asks, hasks, rfl⟩ := Option.map_eq_some_iff.mp h
    exact .read hasks
  | answer r f at_ =>
    obtain ⟨asks, hasks, rfl⟩ := Option.map_eq_some_iff.mp h
    exact .answer hasks

/-! ## The authorization server's part of a run -/

/-- The step of the authorization server, if it is one. -/
def oauthEvent (s : WebGateway root β ι ρ) : WebGatewayEvent β ι ρ → Option (OAuthEvent β ι)
  | .oauth e => some e
  | .viewed i code victims => ((s.callbacks i).bind s.result).map fun result =>
    .viewed i (result.map fun h => servicesIn h.view) code victims
  | _ => none

/-- What the authorization server sees of a run. -/
def trace (gw : OAuth.Gateway) (origins : List String) :
    WebGateway root β ι ρ → List (WebGatewayEvent β ι ρ) → List (OAuthEvent β ι)
  | _, [] => []
  | s, e :: es => (s.oauthEvent e).toList ++
    ((s.step gw origins e).map fun t => trace gw origins t es).getD []

theorem trace_append (h : run (step gw origins) s es = some t) :
    trace gw origins s (es ++ fs) = trace gw origins s es ++ trace gw origins t fs := by
  induction es generalizing s with
  | nil =>
    obtain rfl := run_nil.mp h
    rfl
  | cons e es ih =>
    obtain ⟨u, hu, hrun⟩ := run_cons.mp h
    simp only [List.cons_append, trace, hu, Option.map_some, Option.getD_some, ih hrun,
      List.append_assoc]

theorem trace_concat (h : run (step gw origins) s₀ es = some s) : trace gw origins s₀ (es ++ [e]) =
    trace gw origins s₀ es ++ (s.oauthEvent e).toList := by
  rw [trace_append h]
  cases hs : s.step gw origins e <;> simp [trace, hs]

/-- A step of the gateway is one of its authorization server, or leaves that as it is. -/
theorem Goes.oauthEvent (hm : Goes gw origins s e t) :
    (s.oauthEvent e = none ∧ t.oauth = s.oauth) ∨
      ∃ o, s.oauthEvent e = some o ∧ s.oauth.step gw o = some t.oauth := by
  cases hm with
  | oauth _ hstep => exact .inr ⟨_, rfl, hstep⟩
  | @viewed r i result code victims oauth hi hr hstep =>
    refine .inr ⟨_, ?_, hstep⟩
    have hresult : s.result r = some result := by rw [WebGateway.result, hr]
    rw [WebGateway.oauthEvent, hi, Option.bind_some, hresult]
    rfl
  | asks _ _ _ _ => exact .inl ⟨rfl, rfl⟩
  | refused => exact .inl ⟨rfl, rfl⟩
  | accepted _ => exact .inl ⟨rfl, rfl⟩
  | looks _ _ _ => exact .inl ⟨rfl, rfl⟩
  | posted _ _ => exact .inl ⟨rfl, rfl⟩
  | refresh _ _ => exact .inl ⟨rfl, rfl⟩
  | read _ => exact .inl ⟨rfl, rfl⟩
  | answer _ => exact .inl ⟨rfl, rfl⟩

/-! ## What every step keeps -/

/-- The view was given by the directories to an ask with this token. -/
def Fetched (gw : OAuth.Gateway) (origins : List String) (s₀ : WebGateway root β ι ρ)
    (es : List (WebGatewayEvent β ι ρ)) (token : IdToken) (held : HeldView root) : Prop :=
  ∃ es₁ r f at_ es₂ u notAfter goal base began, es = es₁ ++ .answer r f at_ :: es₂ ∧
    run (step gw origins) s₀ es₁ = some u ∧
    u.asks.stage r = .fetches token notAfter goal base began ∧
    Asks.fetched u.asks.views.known base f = .ok held

/-- The request was sent, and passed the checks. -/
def Sent (gw : OAuth.Gateway) (origins : List String) (s₀ : WebGateway root β ι ρ)
    (es : List (WebGatewayEvent β ι ρ)) (r : ρ) (a : Accepted) : Prop :=
  ∃ es₁ headers body now es₂ u, es = es₁ ++ .post r headers body now :: es₂ ∧
    run (step gw origins) s₀ es₁ = some u ∧
    accept gw origins u.oauth.store headers body now = .ok a

theorem Fetched.append {token : IdToken} {held : HeldView root}
    (h : Fetched gw origins s₀ es token held) : Fetched gw origins s₀ (es ++ fs) token held := by
  obtain ⟨es₁, r, f, at_, es₂, u, notAfter, goal, base, began, rfl, hrun, hstage, hok⟩ := h
  exact ⟨es₁, r, f, at_, es₂ ++ fs, u, notAfter, goal, base, began, by simp, hrun, hstage, hok⟩

theorem Sent.append {r : ρ} {a : Accepted} (h : Sent gw origins s₀ es r a) :
    Sent gw origins s₀ (es ++ fs) r a := by
  obtain ⟨es₁, headers, body, now, es₂, u, rfl, hrun, hok⟩ := h
  exact ⟨es₁, headers, body, now, es₂ ++ fs, u, by simp, hrun, hok⟩

/-- What stands between steps. -/
structure Proper (gw : OAuth.Gateway) (origins : List String)
    (tokens : SortedMap String OAuth.Session) (s₀ : WebGateway root β ι ρ)
    (es : List (WebGatewayEvent β ι ρ)) (s : WebGateway root β ι ρ) : Prop where
  sound : OAuth.Sound gw (trace gw origins s₀ es) s.oauth
  sessions : OAuth.SessionsOwned gw tokens (trace gw origins s₀ es) s.oauth
  asks : s.asks.Own (fun r => (s.users r).map (·.idToken)) (Fetched gw origins s₀ es)
  sent : ∀ r stage a, s.posts r = some stage → stage.request? = some a →
    Sent gw origins s₀ es r a ∧ OAuth.Owned gw tokens (trace gw origins s₀ es) s.oauth.log a.session
  waits : ∀ r a, s.posts r = some (.waits a) → s.users r = some a.session
  calls : ∀ r a held id version call, s.posts r = some (.done a (.calls held id version call)) →
    Fetched gw origins s₀ es a.session.idToken held ∧
    (∃ e ∈ held.view.entries, e.name = call.service) ∧
    McpServer.Asks ((a.msg.get "params").getD .null) call
  callbacks : ∀ i r, s.callbacks i = some r → ∃ session, s.users r = some session ∧
    ((∃ b id a now, s.oauth.requests i = some (.viewing b id a session now)) ∨
      ∃ reply, s.oauth.requests i = some (.done reply))
  codes : ∀ b id code, .coded b id code ∈ s.oauth.log → ∃ login held,
    .signedIn b id login ∈ s.oauth.log ∧ Fetched gw origins s₀ es login.claim.idToken held ∧
    held.view.entries ≠ []

variable {tokens : SortedMap String OAuth.Session}

theorem Proper.oauth (h : Proper gw origins tokens s₀ es s)
    (hrun : run (step gw origins) s₀ es = some s)
    (hu : OAuth.Unguessable (trace gw origins s₀ (es ++ [e]))) (hm : Goes gw origins s e t) :
    OAuth.Sound gw (trace gw origins s₀ (es ++ [e])) t.oauth ∧
      OAuth.SessionsOwned gw tokens (trace gw origins s₀ (es ++ [e])) t.oauth ∧
      s.oauth.log.Sublist t.oauth.log := by
  rw [trace_concat hrun] at hu ⊢
  rcases hm.oauthEvent with ⟨hnone, hsame⟩ | ⟨o, ho, hstep⟩
  · rw [hnone, Option.toList_none, List.append_nil, hsame]
    exact ⟨h.sound, h.sessions, List.Sublist.refl _⟩
  · rw [ho, Option.toList_some] at hu ⊢
    have hsteps := OAuth.steps_of_step hstep
    exact ⟨h.sound.of_steps hu hsteps, h.sessions.of_steps h.sound.recorded h.sound.backed hsteps,
      OAuth.log_of_steps hsteps⟩

/-- An ask that begins is for the session it is begun for, and the others stay whose they are. -/
theorem Proper.begins (h : Proper gw origins tokens s₀ es s) {r : ρ} {session : OAuth.Session}
    {d : AskEvent ρ} {asks : Asks root ρ} (hidle : s.users r = none)
    (hd : (∃ now at_, d = .view r session.idToken session.notAfter now at_) ∨
      d = .refresh r session.idToken session.notAfter) (hstep : s.asks.step d = some asks) :
    asks.Own (fun r' => (Function.update s.users r (some session) r').map (·.idToken))
      (Fetched gw origins s₀ (es ++ [e])) := by
  have hmono := h.asks.mono
    (fun r' => (Function.update s.users r (some session) r').map (·.idToken))
    (Fetched gw origins s₀ (es ++ [e])) (fun i hi => ?_) fun _ _ hf => hf.append
  swap
  · rw [Function.update_apply]
    split_ifs with hir
    · have hstage := h.asks.stage i
      rw [hir] at hi hstage
      cases hs : s.asks.stage r with
      | idle => exact absurd hs hi
      | asks token notAfter goal =>
        rw [hs, hidle] at hstage
        cases hstage.1
      | fetches token notAfter goal base began =>
        rw [hs, hidle] at hstage
        cases hstage.1
      | done result =>
        rcases hd with ⟨now, at_, rfl⟩ | rfl <;> simp [Asks.step, hs] at hstep
    · rfl
  have hself : (Function.update s.users r (some session) r).map (·.idToken) = some session.idToken := by
    rw [Function.update_self]
    rfl
  refine hmono.step hstep (fun i token notAfter now at_ he => ?_) (fun i token notAfter he => ?_)
    fun i f at_ token notAfter goal base began held he => ?_
  · rcases hd with ⟨now', at', rfl⟩ | rfl
    · cases he
      exact hself
    · cases he
  · rcases hd with ⟨now', at', rfl⟩ | rfl
    · cases he
    · cases he
      exact hself
  · rcases hd with ⟨now', at', rfl⟩ | rfl <;> cases he

theorem Proper.asks_step (h : Proper gw origins tokens s₀ es s)
    (hrun : run (step gw origins) s₀ es = some s) (hm : Goes gw origins s e t) :
    t.asks.Own (fun r => (t.users r).map (·.idToken)) (Fetched gw origins s₀ (es ++ [e])) := by
  have hmono := h.asks.mono _ (Fetched gw origins s₀ (es ++ [e])) (fun _ _ => rfl)
    fun _ _ hf => hf.append
  cases hm with
  | oauth _ _ => exact hmono
  | viewed _ _ _ => exact hmono
  | refused => exact hmono
  | accepted _ => exact hmono
  | posted _ _ => exact hmono
  | asks _ _ hr hstep => exact h.begins hr (.inl ⟨_, _, rfl⟩) hstep
  | looks _ hr hstep => exact h.begins hr (.inl ⟨_, _, rfl⟩) hstep
  | refresh hr hstep => exact h.begins hr (.inr rfl) hstep
  | read hstep =>
    exact hmono.step hstep (fun _ _ _ _ _ he => by cases he) (fun _ _ _ he => by cases he)
      fun _ _ _ _ _ _ _ _ _ he => by cases he
  | @answer r f at_ asks hstep =>
    refine hmono.step hstep (fun _ _ _ _ _ he => by cases he) (fun _ _ _ he => by cases he) ?_
    intro i f' at' token notAfter goal base began held he hi hok
    cases he
    exact ⟨es, r, f, at_, [], s, notAfter, goal, base, began, rfl, hrun, hi, hok⟩

omit [Origin] [Jose] [DecidableEq β] [DecidableEq ι] in
/-- A request comes to a stage: what the others are is as it was. -/
theorem posts_goes {r r' : ρ} {stage stage' : PostStage root}
    (h : (s.goes r stage).posts r' = some stage') :
    (r' = r ∧ stage' = stage) ∨ (r' ≠ r ∧ s.posts r' = some stage') := by
  change Function.update s.posts r (some stage) r' = some stage' at h
  rw [Function.update_apply] at h
  split_ifs at h with hr
  · exact .inl ⟨hr, (Option.some.inj h).symm⟩
  · exact .inr ⟨hr, h⟩

theorem Proper.sent_step (h : Proper gw origins tokens s₀ es s)
    (hrun : run (step gw origins) s₀ es = some s) (hlog : s.oauth.log.Sublist t.oauth.log)
    (hm : Goes gw origins s e t) (r : ρ) (stage : PostStage root) (a : Accepted)
    (hr : t.posts r = some stage) (ha : stage.request? = some a) :
    Sent gw origins s₀ (es ++ [e]) r a ∧
      OAuth.Owned gw tokens (trace gw origins s₀ (es ++ [e])) t.oauth.log a.session := by
  rw [trace_concat hrun]
  have hold : ∀ stage', s.posts r = some stage' → stage'.request? = some a →
      Sent gw origins s₀ (es ++ [e]) r a ∧ OAuth.Owned gw tokens
        (trace gw origins s₀ es ++ (s.oauthEvent e).toList) t.oauth.log a.session := by
    intro stage' hr' ha'
    obtain ⟨hsent, howned⟩ := h.sent r stage' a hr' ha'
    exact ⟨hsent.append, howned.mono hlog⟩
  cases hm with
  | oauth _ _ => exact hold stage hr ha
  | viewed _ _ _ => exact hold stage hr ha
  | asks _ _ _ _ => exact hold stage hr ha
  | refresh _ _ => exact hold stage hr ha
  | read _ => exact hold stage hr ha
  | answer _ => exact hold stage hr ha
  | refused =>
    rcases posts_goes hr with ⟨rfl, rfl⟩ | ⟨-, hr⟩
    · cases ha
    · exact hold stage hr ha
  | @accepted r' headers body now a' hok =>
    rcases posts_goes hr with ⟨rfl, rfl⟩ | ⟨-, hr⟩
    · cases ha
      refine ⟨⟨es, headers, body, now, [], s, rfl, hrun, hok⟩, ?_⟩
      obtain ⟨-, ⟨token, -, hlive, -⟩, -⟩ := accept_eq_ok.mp hok
      exact (h.sessions _ _ (Option.filter_eq_some_iff.mp hlive).1).mono hlog
    · exact hold stage hr ha
  | looks ha' _ _ =>
    rcases posts_goes hr with ⟨rfl, rfl⟩ | ⟨-, hr⟩
    · cases ha
      exact hold _ ha' rfl
    · exact hold stage hr ha
  | posted ha' _ =>
    rcases posts_goes hr with ⟨rfl, rfl⟩ | ⟨-, hr⟩
    · cases ha
      exact hold _ ha' rfl
    · exact hold stage hr ha

theorem Proper.waits_step (h : Proper gw origins tokens s₀ es s) (hm : Goes gw origins s e t) (r : ρ)
    (a : Accepted) (hr : t.posts r = some (.waits a)) : t.users r = some a.session := by
  have hold : ∀ {r' : ρ} {session : OAuth.Session}, s.users r' = none →
      s.posts r = some (.waits a) → Function.update s.users r' (some session) r = some a.session := by
    intro r' session hnone hr'
    have huser := h.waits r a hr'
    rw [Function.update_of_ne, huser]
    rintro rfl
    rw [hnone] at huser
    cases huser
  cases hm with
  | oauth _ _ => exact h.waits r a hr
  | viewed _ _ _ => exact h.waits r a hr
  | read _ => exact h.waits r a hr
  | answer _ => exact h.waits r a hr
  | asks _ _ hnone _ => exact hold hnone hr
  | refresh hnone _ => exact hold hnone hr
  | refused =>
    rcases posts_goes hr with ⟨-, heq⟩ | ⟨-, hr⟩
    · cases heq
    · exact h.waits r a hr
  | accepted _ =>
    rcases posts_goes hr with ⟨-, heq⟩ | ⟨-, hr⟩
    · cases heq
    · exact h.waits r a hr
  | looks ha hnone _ =>
    rcases posts_goes hr with ⟨rfl, heq⟩ | ⟨-, hr⟩
    · cases heq
      exact Function.update_self ..
    · exact hold hnone hr
  | posted _ _ =>
    rcases posts_goes hr with ⟨-, heq⟩ | ⟨-, hr⟩
    · cases heq
    · exact h.waits r a hr

theorem Proper.calls_step (h : Proper gw origins tokens s₀ es s) (hm : Goes gw origins s e t) (r : ρ)
    (a : Accepted) (held : HeldView root) (id : Json) (version : Option String) (call : OutgoingCall)
    (hr : t.posts r = some (.done a (.calls held id version call))) :
    Fetched gw origins s₀ (es ++ [e]) a.session.idToken held ∧
      (∃ e ∈ held.view.entries, e.name = call.service) ∧
      McpServer.Asks ((a.msg.get "params").getD .null) call := by
  have hold : s.posts r = some (.done a (.calls held id version call)) →
      Fetched gw origins s₀ (es ++ [e]) a.session.idToken held ∧
      (∃ e ∈ held.view.entries, e.name = call.service) ∧
      McpServer.Asks ((a.msg.get "params").getD .null) call := by
    intro hr'
    obtain ⟨hfetched, hrest⟩ := h.calls r a held id version call hr'
    exact ⟨hfetched.append, hrest⟩
  cases hm with
  | oauth _ _ => exact hold hr
  | viewed _ _ _ => exact hold hr
  | read _ => exact hold hr
  | answer _ => exact hold hr
  | asks _ _ _ _ => exact hold hr
  | refresh _ _ => exact hold hr
  | refused =>
    rcases posts_goes hr with ⟨-, heq⟩ | ⟨-, hr⟩
    · cases heq
    · exact hold hr
  | accepted _ =>
    rcases posts_goes hr with ⟨-, heq⟩ | ⟨-, hr⟩
    · cases heq
    · exact hold hr
  | looks _ _ _ =>
    rcases posts_goes hr with ⟨-, heq⟩ | ⟨-, hr⟩
    · cases heq
    · exact hold hr
  | @posted r' a' result ha hstage =>
    rcases posts_goes hr with ⟨rfl, heq⟩ | ⟨-, hr⟩
    · obtain ⟨rfl, houtcome⟩ := PostStage.done.inj heq
      obtain ⟨rfl, hrest⟩ := posted_calls houtcome.symm
      refine ⟨?_, hrest⟩
      have hown := h.asks.stage r
      rw [hstage, h.waits r a ha] at hown
      obtain ⟨token, htoken, hfetched⟩ := hown
      obtain rfl := Option.some.inj htoken
      exact hfetched.append
    · exact hold hr

theorem Proper.callbacks_step (h : Proper gw origins tokens s₀ es s) (hm : Goes gw origins s e t)
    (i : ι) (r : ρ) (hi : t.callbacks i = some r) : ∃ session, t.users r = some session ∧
      ((∃ b id a now, t.oauth.requests i = some (.viewing b id a session now)) ∨
        ∃ reply, t.oauth.requests i = some (.done reply)) := by
  have hbegun : ∀ {r' : ρ} {session : OAuth.Session}, s.users r' = none → s.callbacks i = some r →
      ∃ session', Function.update s.users r' (some session) r = some session' ∧
        ((∃ b id a now, s.oauth.requests i = some (.viewing b id a session' now)) ∨
          ∃ reply, s.oauth.requests i = some (.done reply)) := by
    intro r' session hnone hi'
    obtain ⟨session', huser, hstage⟩ := h.callbacks i r hi'
    refine ⟨session', ?_, hstage⟩
    rw [Function.update_of_ne, huser]
    rintro rfl
    rw [hnone] at huser
    cases huser
  have hoauth : ∀ {d : OAuthEvent β ι} {o : OAuth β ι}, s.oauth.step gw d = some o →
      s.callbacks i = some r → ∃ session, s.users r = some session ∧
        ((∃ b id a now, o.requests i = some (.viewing b id a session now)) ∨
          ∃ reply, o.requests i = some (.done reply)) := by
    intro d o hstep hi'
    obtain ⟨session, huser, hstage⟩ := h.callbacks i r hi'
    refine ⟨session, huser, ?_⟩
    have hsteps := OAuth.steps_of_step hstep
    rcases hstage with ⟨b, id, a, now, hview⟩ | ⟨reply, hdone⟩
    · rcases OAuth.kept_of_steps hsteps hview (.inl ⟨b, id, a, session, now, rfl⟩) with hsame | hdone
      · exact .inl ⟨b, id, a, now, hsame⟩
      · exact .inr hdone
    · rcases OAuth.kept_of_steps hsteps hdone (.inr ⟨reply, rfl⟩) with hsame | hdone
      · exact .inr ⟨reply, hsame⟩
      · exact .inr hdone
  cases hm with
  | oauth _ hstep => exact hoauth hstep hi
  | viewed _ _ hstep => exact hoauth hstep hi
  | refused => exact h.callbacks i r hi
  | accepted _ => exact h.callbacks i r hi
  | posted _ _ => exact h.callbacks i r hi
  | read _ => exact h.callbacks i r hi
  | answer _ => exact h.callbacks i r hi
  | looks _ hnone _ => exact hbegun hnone hi
  | refresh hnone _ => exact hbegun hnone hi
  | @asks r' i' now began at_ b id a session asks hview hidle hnone _ =>
    change Function.update s.callbacks i' (some r') i = some r at hi
    rw [Function.update_apply] at hi
    split_ifs at hi with hii
    · cases hi
      rw [hii]
      exact ⟨session, Function.update_self .., .inl ⟨b, id, a, began, hview⟩⟩
    · exact hbegun hnone hi

/-- A code is issued on a view of who signed in. -/
theorem Proper.codes_step (h : Proper gw origins tokens s₀ es s)
    (hlog : s.oauth.log.Sublist t.oauth.log) (hm : Goes gw origins s e t) (b : β) (id code : String)
    (hcoded : .coded b id code ∈ t.oauth.log) : ∃ login held,
      .signedIn b id login ∈ t.oauth.log ∧
      Fetched gw origins s₀ (es ++ [e]) login.claim.idToken held ∧ held.view.entries ≠ [] := by
  have hold : .coded b id code ∈ s.oauth.log → ∃ login held, .signedIn b id login ∈ t.oauth.log ∧
      Fetched gw origins s₀ (es ++ [e]) login.claim.idToken held ∧ held.view.entries ≠ [] := by
    intro hmem
    obtain ⟨login, held, hsigned, hfetched, hentries⟩ := h.codes b id code hmem
    exact ⟨login, held, hlog.subset hsigned, hfetched.append, hentries⟩
  cases hm with
  | refused => exact hold hcoded
  | accepted _ => exact hold hcoded
  | posted _ _ => exact hold hcoded
  | read _ => exact hold hcoded
  | answer _ => exact hold hcoded
  | looks _ _ _ => exact hold hcoded
  | refresh _ _ => exact hold hcoded
  | asks _ _ _ _ => exact hold hcoded
  | @oauth d o hd hstep =>
    refine hold ?_
    have hnew : ∀ {d' : Deed β}, (∀ b id code, d' ≠ .coded b id code) →
        .coded b id code ∈ s.oauth.log ++ [d'] → .coded b id code ∈ s.oauth.log := by
      intro d' hd' hmem
      rcases List.mem_append.mp hmem with hmem | hmem
      · exact hmem
      · exact absurd (List.mem_singleton.mp hmem).symm (hd' b id code)
    cases OAuth.steps_of_step hstep with
    | refused _ => exact hcoded
    | began _ _ _ => exact hnew (by simp) hcoded
    | confirms _ _ _ _ => exact hcoded
    | confirmed _ => exact hnew (by simp) hcoded
    | lapses _ => exact hcoded
    | returned _ _ _ _ => exact hnew (by simp) hcoded
    | signedIn _ _ => exact hnew (by simp) hcoded
    | coded _ _ _ => exact absurd rfl (hd _ _ _ _)
    | redeemed _ _ => exact hnew (by simp) hcoded
  | @viewed r i result code' victims o hi hr hstep =>
    cases OAuth.steps_of_step hstep with
    | refused _ => exact hold hcoded
    | @coded i' b' id' a session now tools code'' victims' store hstage hadmitted hstore =>
      rcases List.mem_append.mp hcoded with hmem | hmem
      · exact hold hmem
      obtain ⟨rfl, rfl, rfl⟩ := Deed.coded.inj (List.mem_singleton.mp hmem)
      obtain ⟨upstream, login, -, rfl, hdid⟩ := h.sound.backed.stages i _ hstage
      obtain ⟨session', huser, hview⟩ := h.callbacks i r hi
      have hown := h.asks.stage r
      rw [hr, huser] at hown
      have hsession : session' = OAuth.sessionOf a login := by
        rcases hview with ⟨_, _, _, _, hview⟩ | ⟨_, hdone⟩
        · rw [hstage] at hview
          cases hview
          rfl
        · rw [hstage] at hdone
          cases hdone
      cases result with
      | error why =>
        simp only [Except.map, OAuth.admitted] at hadmitted
        split_ifs at hadmitted
      | ok held =>
        obtain ⟨token, htoken, hfetched⟩ := hown
        obtain rfl := Option.some.inj htoken
        rw [hsession] at hfetched
        refine ⟨login, held, hlog.subset (hdid.subset (by simp [OAuth.signIn])), hfetched.append, ?_⟩
        intro hnil
        simp [Except.map, servicesIn, hnil, OAuth.admitted] at hadmitted

theorem proper_start {opened : Int64} {known : List NodeId} :
    Proper gw origins tokens (start tokens opened known : WebGateway root β ι ρ) []
      (start tokens opened known) where
  sound := OAuth.sound_start tokens opened
  sessions h session hk := .inl ⟨h, SortedMap.get?_of_retain hk⟩
  asks := Asks.own_start known
  sent _ _ _ hr := by cases hr
  waits _ _ hr := by cases hr
  calls _ _ _ _ _ _ hr := by cases hr
  callbacks _ _ hi := by cases hi
  codes _ _ _ hmem := by simp [start, OAuth.start] at hmem

theorem Proper.step (h : Proper gw origins tokens s₀ es s)
    (hrun : run (step gw origins) s₀ es = some s)
    (hu : OAuth.Unguessable (trace gw origins s₀ (es ++ [e])))
    (hstep : s.step gw origins e = some t) : Proper gw origins tokens s₀ (es ++ [e]) t := by
  have hm := goes_of_step hstep
  obtain ⟨hsound, hsessions, hlog⟩ := h.oauth hrun hu hm
  exact ⟨hsound, hsessions, h.asks_step hrun hm, h.sent_step hrun hlog hm, h.waits_step hm,
    h.calls_step hm, h.callbacks_step hm, h.codes_step hlog hm⟩

theorem proper_of_run {opened : Int64} {known : List NodeId} (hstart : s₀ = start tokens opened known)
    (hrun : run (step gw origins) s₀ es = some s)
    (hu : OAuth.Unguessable (trace gw origins s₀ es)) :
    Proper gw origins tokens s₀ es s := by
  refine run_induction (motive := fun es s =>
    OAuth.Unguessable (trace gw origins s₀ es) → Proper gw origins tokens s₀ es s)
    (fun _ => hstart ▸ proper_start) (fun es e s t hrun' ih hstep hu' => ?_) hrun hu
  have hbefore : OAuth.Unguessable (trace gw origins s₀ es) :=
    (trace_concat hrun' ▸ hu').of_append
  exact (ih hbefore).step hrun' hu' hstep

/-- **A web user's call is their own.** In any interleaving of sign-ins, asks for views and requests
to `/mcp`: a request that makes a call came from an allowed origin, if from any, with the token of a
session for this gateway that had not expired; that session was in the file, or is of a sign-in
carried through in one browser, whose ID token the gateway verified; and the service is one of a
view that the directories gave for that ID token, named by the request. -/
theorem calls_own {opened : Int64} {known : List NodeId} (hstart : s₀ = start tokens opened known)
    (hrun : run (step gw origins) s₀ es = some s)
    (hu : OAuth.Unguessable (trace gw origins s₀ es)) {r : ρ} {a : Accepted}
    {held : HeldView root} {id : Json} {version : Option String} {call : OutgoingCall}
    (hcall : s.posts r = some (.done a (.calls held id version call))) :
    (∃ es₁ headers body now es₂ u, es = es₁ ++ .post r headers body now :: es₂ ∧
      run (step gw origins) s₀ es₁ = some u ∧
      originOk origins headers = true ∧ Presents gw u.oauth.store headers now a.session ∧
      now < a.session.notAfter ∧ checkHeaders headers a.msg = .ok a.era) ∧
    ((∃ h, tokens.get? h = some a.session) ∨ ∃ b flow auth upstream login,
      a.session = OAuth.sessionOf auth login ∧
      OAuth.Vouched gw (trace gw origins s₀ es) login ∧
      OAuth.Did s.oauth.log b flow auth (OAuth.signIn gw b flow auth upstream login)) ∧
    Fetched gw origins s₀ es a.session.idToken held ∧
    (∃ e ∈ held.view.entries, e.name = call.service) ∧
    McpServer.Asks ((a.msg.get "params").getD .null) call := by
  have h := proper_of_run hstart hrun hu
  obtain ⟨⟨es₁, headers, body, now, es₂, u, heq, hto, hok⟩, howned⟩ := h.sent r _ a hcall rfl
  obtain ⟨horigin, hpresents, -, hera, -⟩ := accept_eq_ok.mp hok
  have hlive : now < a.session.notAfter := by
    obtain ⟨token, -, hsession, -⟩ := hpresents
    exact of_decide_eq_true (Option.filter_eq_some_iff.mp hsession).2
  refine ⟨⟨es₁, headers, body, now, es₂, u, heq, hto, horigin, hpresents, hlive, hera⟩, ?_,
    h.calls r a held id version call hcall⟩
  refine howned.imp (fun hfile => hfile) fun hsigned => ?_
  obtain ⟨b, flow, auth, upstream, login, -, hlogin, hsession, hdid⟩ := hsigned
  exact ⟨b, flow, auth, upstream, login, hsession, hlogin.vouched, hdid⟩

/-- **A code is for a view.** In any such run, a sign-in is given a code only once the directories
have given, for the ID token of who signed in, a view that names a service. -/
theorem codes_own {opened : Int64} {known : List NodeId} (hstart : s₀ = start tokens opened known)
    (hrun : run (step gw origins) s₀ es = some s)
    (hu : OAuth.Unguessable (trace gw origins s₀ es)) {b : β}
    {id code : String} (hcoded : .coded b id code ∈ s.oauth.log) : ∃ login held,
      .signedIn b id login ∈ s.oauth.log ∧
      Fetched gw origins s₀ es login.claim.idToken held ∧
      held.view.entries ≠ [] :=
  (proper_of_run hstart hrun hu).codes b id code hcoded

theorem trace_eq_nil (h : ∀ e ∈ es, ∀ s : WebGateway root β ι ρ, s.oauthEvent e = none) :
    trace gw origins s es = [] := by
  induction es generalizing s with
  | nil => rfl
  | cons e es ih =>
    rw [trace, h e List.mem_cons_self s]
    cases s.step gw origins e with
    | none => rfl
    | some t => exact ih fun e' he' => h e' (List.mem_cons_of_mem e he')

theorem step_post {r : ρ} {headers : Headers} {body : List UInt8} {now : Int64} {a : Accepted}
    (hposts : s.posts r = none) (husers : s.users r = none)
    (ha : accept gw origins s.oauth.store headers body now = .ok a) :
    s.step gw origins (.post r headers body now) = some (s.goes r (.accepted a)) := by
  rw [step]
  simp only [hposts, husers, ha]

/-- Steps of the authorization server alone. -/
theorem run_oauth (gw : OAuth.Gateway) (origins : List String) (s : WebGateway root β ι ρ)
    {o : OAuth β ι} {os : List (OAuthEvent β ι)}
    (hos : ∀ e ∈ os, ∀ i tools code victims, e ≠ .viewed i tools code victims)
    (h : run (OAuth.step gw) s.oauth os = some o) :
    run (step gw origins) s (os.map .oauth) = some { s with oauth := o } ∧
      trace gw origins s (os.map .oauth) = os := by
  induction os generalizing s with
  | nil =>
    obtain rfl := run_nil.mp h
    exact ⟨rfl, rfl⟩
  | cons e os ih =>
    obtain ⟨u, hu, hrun⟩ := run_cons.mp h
    have hstep : step gw origins s (.oauth e) = some { s with oauth := u } := by
      cases e with
      | viewed i tools code victims => exact absurd rfl (hos _ List.mem_cons_self i tools code victims)
      | _ => simp only [step, hu, Option.map_some]
    obtain ⟨hrest, htrace⟩ := ih { s with oauth := u } (fun e he => hos e (List.mem_cons_of_mem _ he)) hrun
    refine ⟨run_cons.mpr ⟨_, hstep, hrest⟩, ?_⟩
    rw [List.map_cons, trace, hstep, Option.map_some, Option.getD_some, htrace]
    rfl

end

/-! ## Two runs -/

section Sample

attribute [local instance] Crypto.plain Jose.plain OAuth.clientWeb OAuth.clientOrigin OAuth.clientParts
  OAuth.plainHmac McpServer.jaqPlain

/-- The gateway with that file. -/
def webStart : WebGateway (nodeId sampleRoot) Unit (Fin 4) Unit := start webTokens 0 []

/-- A call of the service. -/
def callMessage : Json := McpServer.request sampleName.name []

theorem mirrors_callMessage : Mirrors (webHeaders "tools/call") callMessage where
  version := ⟨LATEST_PROTOCOL_VERSION, by decide, by decide, by decide⟩
  method := by decide
  name := by
    have hmethod : methodOf callMessage = "tools/call" := by decide
    intro field hfield
    rw [hmethod] at hfield
    have hname : field = "name" := by simpa [nameField] using hfield.symm
    subst hname
    exact ⟨sampleName.name, by decide, by decide⟩

theorem posted_sample {held : HeldView (nodeId sampleRoot)}
    (hview : held.view = (sampleHeld FreshSet.empty).view) : ∃ call,
      (Accepted.mk webSession callMessage (.num 1) .modern).posted (.ok held) =
        .calls held (.num 1) (some LATEST_PROTOCOL_VERSION) call := by
  obtain ⟨call, hcall, -⟩ :=
    McpServer.runTool_empty ⟨sampleName, (sampleService [sampleNode 2]).description⟩
  have hlisted : (Accepted.server ⟨webSession, callMessage, .num 1, .modern⟩ held).listed
      sampleName.name = some ⟨sampleName, (sampleService [sampleNode 2]).description⟩ := by
    rw [Accepted.server, hview]
    rfl
  have htool := McpServer.toolsCall_of_listed (McpServer.toolOf_request sampleName.name []) hlisted
  have hcalls : ((Accepted.server ⟨webSession, callMessage, .num 1, .modern⟩ held).handle
      callMessage).2 = .calls (.num 1) (some LATEST_PROTOCOL_VERSION) call :=
    McpServer.handle_request (htool.trans hcall)
  exact ⟨call, by rw [Accepted.posted, hcalls]⟩

/-- A call, to the answer of the core. -/
def callEvents (f : Fetch) : List (WebGatewayEvent Unit (Fin 4) Unit) :=
  [.post () (webHeaders "tools/call") (utf8 callMessage.compact) 5, .looks () 5 0, .read () 5,
    .answer () f 0, .posted ()]

/-- An ask that found no view is given one by the directories. -/
theorem run_answered {t : WebGateway (nodeId sampleRoot) Unit (Fin 4) Unit} {token : IdToken}
    {notAfter : Int64} {f : Fetch} {held : HeldView (nodeId sampleRoot)}
    (hstage : t.asks.stage () = .asks token notAfter (.request none))
    (hnone : t.asks.views.held token = none) (hknown : t.asks.views.known = [])
    (hf : Asks.fetched [] none f = .ok held) : ∃ asks,
      run (step OAuth.sampleGateway []) t [.read () 5, .answer () f 0] = some { t with asks } ∧
        asks.stage () = .done (.ok held) := by
  have hread : ∃ asks, t.asks.step (.read () 5) = some asks ∧
      asks.stage () = .fetches token notAfter (.request none) none (t.asks.writes token) ∧
      asks.views.known = [] := by
    rw [Asks.step]
    simp only [hstage, Views.cached, hnone]
    exact ⟨_, rfl, rfl, hknown⟩
  obtain ⟨asks, hasks, hfetches, hknown'⟩ := hread
  have hanswer : ∃ asks', asks.step (.answer () f 0) = some asks' ∧
      asks'.stage () = .done (.ok held) := by
    rw [Asks.step]
    simp only [hfetches, hknown', hf]
    exact ⟨_, rfl, rfl⟩
  obtain ⟨asks', hasks', hdone⟩ := hanswer
  refine ⟨asks', run_cons.mpr ⟨{ t with asks }, ?_, run_cons.mpr ⟨_, ?_, run_nil.mpr rfl⟩⟩, hdone⟩
  · rw [step, hasks]
    rfl
  · rw [step, hasks']
    rfl

theorem run_callEvents {f : Fetch} {held : HeldView (nodeId sampleRoot)}
    (hf : Asks.fetched [] none f = .ok held) :
    ∃ s : WebGateway (nodeId sampleRoot) Unit (Fin 4) Unit,
      run (step OAuth.sampleGateway []) webStart (callEvents f) = some s ∧
      s.posts () = some (.done ⟨webSession, callMessage, .num 1, .modern⟩
        ((Accepted.mk webSession callMessage (.num 1) .modern).posted (.ok held))) := by
  let a : Accepted := ⟨webSession, callMessage, .num 1, .modern⟩
  have hpost : webStart.step OAuth.sampleGateway []
      (.post () (webHeaders "tools/call") (utf8 callMessage.compact) 5) =
        some (webStart.goes () (.accepted a)) := by
    have haccept : accept OAuth.sampleGateway [] webStart.oauth.store (webHeaders "tools/call")
        (utf8 callMessage.compact) 5 = .ok a :=
      accept_sample mirrors_callMessage (by decide) (by decide) rfl
    exact step_post rfl rfl haccept
  have hlooks : ∃ t, step OAuth.sampleGateway [] (webStart.goes () (.accepted a)) (.looks () 5 0) =
      some t ∧ t.posts () = some (.waits a) ∧
      t.asks.stage () = .asks a.session.idToken a.session.notAfter (.request none) ∧
      t.asks.views.held a.session.idToken = none ∧ t.asks.views.known = [] := by
    have hposts : (webStart.goes () (.accepted a)).posts () = some (.accepted a) := rfl
    rw [step]
    simp only [hposts]
    exact ⟨_, rfl, rfl, rfl, rfl, rfl⟩
  obtain ⟨t, ht, hwaits, hstage, hnone, hknown⟩ := hlooks
  obtain ⟨asks, hasks, hdone⟩ := run_answered hstage hnone hknown hf
  have hposted : step OAuth.sampleGateway [] { t with asks } (.posted ()) =
      some (goes { t with asks } () (.done a (a.posted (.ok held)))) := by
    have hresult : result { t with asks } () = some (.ok held) := by rw [result, hdone]
    rw [step]
    simp only [hwaits, hresult]
  have hrun := run_concat.mpr ⟨_, hasks, hposted⟩
  exact ⟨_, run_cons.mpr ⟨_, hpost, run_cons.mpr ⟨t, ht, hrun⟩⟩, rfl⟩

/-- The call is made as the session of the file says. -/
theorem calls_own_sample : ∃ (s : WebGateway (nodeId sampleRoot) Unit (Fin 4) Unit) (f : Fetch)
    (held : HeldView (nodeId sampleRoot)) (call : OutgoingCall),
    run (step OAuth.sampleGateway []) webStart (callEvents f) = some s ∧
      s.posts () = some (.done ⟨webSession, callMessage, .num 1, .modern⟩
        (.calls held (.num 1) (some LATEST_PROTOCOL_VERSION) call)) ∧
      Fetched OAuth.sampleGateway [] webStart (callEvents f) webSession.idToken held := by
  obtain ⟨f, held, hf, hview⟩ :=
    Asks.exists_fetched (sampleHeld FreshSet.empty).verified vouchable_sampleSigned
  obtain ⟨s, hrun, hdone⟩ := run_callEvents hf
  obtain ⟨call, hcalls⟩ := posted_sample hview
  rw [hcalls] at hdone
  have htrace : trace OAuth.sampleGateway [] webStart (callEvents f) = [] := by
    apply trace_eq_nil
    intro e he s
    simp only [callEvents, List.mem_cons, List.not_mem_nil, or_false] at he
    rcases he with rfl | rfl | rfl | rfl | rfl <;> rfl
  have hguess : OAuth.Unguessable (trace OAuth.sampleGateway [] webStart (callEvents f)) := by
    rw [htrace]
    exact ⟨List.nodup_nil, List.nodup_nil, List.nodup_nil, fun x hx => by simp at hx⟩
  obtain ⟨-, -, hfetched, -, -⟩ := calls_own rfl hrun hguess hdone
  exact ⟨s, f, held, call, hrun, hdone, hfetched⟩

/-! ### A sign-in -/

/-- The gateway with no sessions. -/
def signInStart : WebGateway (nodeId sampleRoot) Unit (Fin 4) Unit := start ∅ 0 []

/-- The request that comes back from the provider. -/
def returned : Fin 4 := ⟨2, by decide⟩

/-- A sign-in, to the code. -/
def signInEvents (f : Fetch) : List (WebGatewayEvent Unit (Fin 4) Unit) :=
  (OAuth.sampleEvents OAuth.fullUri).dropLast.map .oauth ++
    .asks () returned 5 0 :: [.read () 5, .answer () f 0] ++ [.viewed returned (.ok "code") []]

theorem run_signInEvents {f : Fetch} {held : HeldView (nodeId sampleRoot)}
    (hf : Asks.fetched [] none f = .ok held) (hview : held.view = (sampleHeld FreshSet.empty).view) :
    ∃ s : WebGateway (nodeId sampleRoot) Unit (Fin 4) Unit,
      run (step OAuth.sampleGateway []) signInStart (signInEvents f) = some s ∧
      s.oauth.store.codes.get? "code" = some (OAuth.sampleGrant OAuth.fullUri) ∧
      trace OAuth.sampleGateway [] signInStart (signInEvents f) = OAuth.sampleEvents OAuth.fullUri := by
  have hsplit : OAuth.sampleEvents OAuth.fullUri = (OAuth.sampleEvents OAuth.fullUri).dropLast ++
      [.viewed returned (.ok [⟨sampleName, "orders"⟩]) (.ok "code") []] := rfl
  obtain ⟨o, hrun, hcode, -⟩ := OAuth.run_sampleEvents OAuth.fullUri
  rw [hsplit] at hrun
  obtain ⟨u, hu, hlast⟩ := run_concat.mp hrun
  obtain ⟨b, id, a, session, now, hstage⟩ : ∃ b id a session now,
      u.requests returned = some (.viewing b id a session now) := by
    simp only [OAuth.step] at hlast
    split at hlast
    · rename_i b id a session now hstage
      exact ⟨b, id, a, session, now, hstage⟩
    · cases hlast
  have hplain : ∀ e ∈ (OAuth.sampleEvents OAuth.fullUri).dropLast, ∀ i tools code victims,
      e ≠ .viewed i tools code victims := by
    simp [OAuth.sampleEvents]
  obtain ⟨hsigned, htrace⟩ := run_oauth OAuth.sampleGateway [] signInStart hplain hu
  have hasks : ∃ t : WebGateway (nodeId sampleRoot) Unit (Fin 4) Unit,
      step OAuth.sampleGateway [] { signInStart with oauth := u } (.asks () returned 5 0) = some t ∧
      t.oauth = u ∧ t.callbacks returned = some () ∧
      t.asks.stage () = .asks session.idToken session.notAfter (.request none) ∧
      t.asks.views.held session.idToken = none ∧ t.asks.views.known = [] := by
    rw [step]
    simp only [hstage]
    exact ⟨_, rfl, rfl, rfl, rfl, rfl, rfl⟩
  obtain ⟨t, ht, rfl, hcallback, hwaits, hnone, hknown⟩ := hasks
  obtain ⟨asks, hanswered, hdone⟩ := run_answered hwaits hnone hknown hf
  have hservices : servicesIn held.view = [⟨sampleName, "orders"⟩] := by
    rw [hview]
    rfl
  have hresult : (t.callbacks returned).bind (result { t with asks }) = some (.ok held) := by
    rw [hcallback, Option.bind_some, result, hdone]
  have hviewed : step OAuth.sampleGateway [] { t with asks } (.viewed returned (.ok "code") []) =
      some { t with asks, oauth := o } := by
    rw [step]
    simp only [hresult, Except.map, hservices, hlast]
    rfl
  have hask : run (step OAuth.sampleGateway []) { signInStart with oauth := t.oauth }
      (.asks () returned 5 0 :: [.read () 5, .answer () f 0]) = some { t with asks } :=
    run_cons.mpr ⟨t, ht, hanswered⟩
  have hbefore := run_append.mpr ⟨_, hsigned, hask⟩
  refine ⟨_, run_concat.mpr ⟨_, hbefore, hviewed⟩, hcode, ?_⟩
  have hquiet : trace OAuth.sampleGateway [] { signInStart with oauth := t.oauth }
      (.asks () returned 5 0 :: [.read () 5, .answer () f 0]) = [] := by
    apply trace_eq_nil
    intro e he s
    simp only [List.mem_cons, List.not_mem_nil, or_false] at he
    rcases he with rfl | rfl | rfl <;> rfl
  have hlast : oauthEvent { t with asks } (.viewed returned (.ok "code") []) =
      some (.viewed returned (.ok [⟨sampleName, "orders"⟩]) (.ok "code") []) := by
    rw [oauthEvent]
    simp only [hresult, Option.map_some, Except.map, hservices]
  rw [signInEvents, trace_concat hbefore, trace_append hsigned, htrace, hquiet, hlast, hsplit]
  rfl

/-- The code is for a view that names the service. -/
theorem codes_own_sample : ∃ (s : WebGateway (nodeId sampleRoot) Unit (Fin 4) Unit) (f : Fetch)
    (b : Unit) (id : String) (login : Login) (held : HeldView (nodeId sampleRoot)),
    run (step OAuth.sampleGateway []) signInStart (signInEvents f) = some s ∧
      .coded b id "code" ∈ s.oauth.log ∧ .signedIn b id login ∈ s.oauth.log ∧
      Fetched OAuth.sampleGateway [] signInStart (signInEvents f) login.claim.idToken held ∧
      held.view.entries ≠ [] := by
  obtain ⟨f, held, hf, hview⟩ :=
    Asks.exists_fetched (sampleHeld FreshSet.empty).verified vouchable_sampleSigned
  obtain ⟨s, hrun, hcode, htrace⟩ := run_signInEvents hf hview
  have hguess : OAuth.Unguessable (trace OAuth.sampleGateway [] signInStart (signInEvents f)) := by
    rw [htrace]
    exact OAuth.unguessable_tokenEvents.of_append
  have hproper := proper_of_run rfl hrun hguess
  obtain ⟨b, id, a, upstream, login, -, -, -, hdid⟩ := hproper.sound.backed.codes _ _ hcode
  have hcoded : .coded b id "code" ∈ s.oauth.log := hdid.subset (by simp)
  obtain ⟨login', held', hsigned, hfetched, hentries⟩ := codes_own rfl hrun hguess hcoded
  exact ⟨s, f, b, id, login', held', hrun, hcoded, hsigned, hfetched, hentries⟩

end Sample

end WebGateway

end Wires
