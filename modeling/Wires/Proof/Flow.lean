import Wires.Framework.Ledger
import Wires.Proof.Redeem

/-!
# What a token is given for

In a run whose ids, codes and tokens are drawn anew each time, and in which no
two of the texts that are hashed have one digest (`Unguessable`), what is held
for a sign-in is held for what was done before (`Backed`): the cookies of a
browser, the stages of the requests and the codes each stand on deeds of one
authorization, in one browser, in order (`Did`). So does what is done: a token
is given out for all of them (`Earned`).
-/

namespace Wires

/-! ## What is drawn, and what is hashed -/

section

variable [Web] {β ι : Type}

/-- The id that is drawn for an authorization. -/
def OAuthEvent.id? : OAuthEvent β ι → Option String
  | .authorize _ _ _ _ _ id _ _ => id.toOption
  | _ => none

/-- The code that is drawn for a sign-in. -/
def OAuthEvent.code? : OAuthEvent β ι → Option String
  | .viewed _ _ code _ => code.toOption
  | _ => none

/-- The token that is drawn for a code. -/
def OAuthEvent.token? : OAuthEvent β ι → Option String
  | .token _ _ _ drawn _ => drawn.toOption
  | _ => none

/-- The text whose digest is the cookie of a callback. -/
def bindingText (id : String) : List UInt8 := utf8 ("wires gateway callback v1:" ++ id).toList

/-- The texts whose digests are compared. -/
def OAuthEvent.hashes : OAuthEvent β ι → List (List UInt8)
  | .authorize _ _ _ _ _ id _ _ => (id.toOption.map bindingText).toList
  | .callback _ _ _ q _ => [bindingText ((q.get? "state").getD "")]
  | .token _ _ _ drawn _ => (drawn.toOption.map fun t => utf8 t.toList).toList
  | _ => []

end

namespace OAuth

section

variable [Web] [Origin] {β ι : Type} {es fs : List (OAuthEvent β ι)} {e : OAuthEvent β ι}

/-- Nothing is drawn twice, and no two of the texts hashed have one digest. -/
structure Unguessable (es : List (OAuthEvent β ι)) : Prop where
  ids : (es.filterMap OAuthEvent.id?).Nodup
  codes : (es.filterMap OAuthEvent.code?).Nodup
  tokens : (es.filterMap OAuthEvent.token?).Nodup
  hash : Set.InjOn Origin.sha256 {text | ∃ e ∈ es, text ∈ e.hashes}

theorem Unguessable.of_append (h : Unguessable (es ++ fs)) : Unguessable es where
  ids := by
    have hids := h.ids
    rw [List.filterMap_append] at hids
    exact hids.of_append_left
  codes := by
    have hcodes := h.codes
    rw [List.filterMap_append] at hcodes
    exact hcodes.of_append_left
  tokens := by
    have htokens := h.tokens
    rw [List.filterMap_append] at htokens
    exact htokens.of_append_left
  hash := by
    apply h.hash.mono
    intro text htext
    obtain ⟨e, he, htext⟩ := htext
    exact ⟨e, List.mem_append_left fs he, htext⟩

theorem callbackBinding_inj {id id' : String}
    (h : Set.InjOn Origin.sha256 {text | ∃ e ∈ es, text ∈ e.hashes})
    (hid : ∃ e ∈ es, bindingText id ∈ e.hashes) (hid' : ∃ e ∈ es, bindingText id' ∈ e.hashes)
    (heq : callbackBinding id = callbackBinding id') : id = id' := by
  have htext : bindingText id = bindingText id' :=
    h hid hid' (Bytes.ext (Base64.encode_injective (String.ofList_injective heq)))
  have hlist := utf8_injective htext
  rw [String.toList_append, String.toList_append] at hlist
  exact String.toList_injective (List.append_cancel_left hlist)

theorem tokenHash_inj {t t' : String}
    (h : Set.InjOn Origin.sha256 {text | ∃ e ∈ es, text ∈ e.hashes})
    (ht : ∃ e ∈ es, utf8 t.toList ∈ e.hashes) (ht' : ∃ e ∈ es, utf8 t'.toList ∈ e.hashes)
    (heq : tokenHash t = tokenHash t') : t = t' := by
  have htext : utf8 t.toList = utf8 t'.toList :=
    h ht ht' (Bytes.ext (Base64.encode_injective (String.ofList_injective heq)))
  exact String.toList_injective (utf8_injective htext)

/-! ## What stands on what -/

variable [Jose] [DecidableEq β] [DecidableEq ι] {gw : Gateway} {s t : OAuth β ι}
  {log log' : List (Deed β)} {b : β} {id : String} {a : Authorization} {ds : List (Deed β)} {d : Deed β}

/-- What `a` was asked with, in `b`. -/
def Began (gw : Gateway) (es : List (OAuthEvent β ι)) (b : β) (id : String) (a : Authorization) :
    Prop :=
  ∃ i q client verifier now victims c, .authorize i b q client verifier (.ok id) now victims ∈ es ∧
    authorization gw q client verifier now = .ok (c, a)

/-- What signed in. -/
def LoggedIn (gw : Gateway) (es : List (OAuthEvent β ι)) (a : Authorization) (login : Login) : Prop :=
  ∃ i reply at_ keys, .exchanged i reply at_ keys ∈ es ∧ exchanged gw a reply at_ keys = .ok login

/-- `a` began in `b`, and these deeds followed. -/
def Did (log : List (Deed β)) (b : β) (id : String) (a : Authorization) (ds : List (Deed β)) : Prop :=
  (.began b id a :: ds).Sublist log

/-- The sign-in's deeds before its code. -/
def signIn (gw : Gateway) (b : β) (id : String) (a : Authorization) (upstream : String)
    (login : Login) : List (Deed β) :=
  [.confirmed b id, .returned b id (exchangeForm gw a upstream), .signedIn b id login]

/-- What a request's stage stands on. -/
def StageBacked (gw : Gateway) (es : List (OAuthEvent β ι)) (log : List (Deed β)) :
    OAuthStage β → Prop
  | .confirming b id a => Did log b id a []
  | .exchanging b id a form _ => ∃ upstream, form = exchangeForm gw a upstream ∧
      Did log b id a [.confirmed b id, .returned b id form]
  | .viewing b id a session _ => ∃ upstream login, LoggedIn gw es a login ∧
      session = sessionOf a login ∧ Did log b id a (signIn gw b id a upstream login)
  | .done _ => True

/-- What a code stands on. -/
def CodeBacked (gw : Gateway) (es : List (OAuthEvent β ι)) (log : List (Deed β)) (code : String)
    (g : CodeGrant) : Prop :=
  ∃ b id a upstream login now, LoggedIn gw es a login ∧ g = grantOf a (sessionOf a login) now ∧
    Did log b id a (signIn gw b id a upstream login ++ [.coded b id code])

/-- Everything that is held stands on deeds of one authorization, in one browser. -/
structure Backed (gw : Gateway) (es : List (OAuthEvent β ι)) (log : List (Deed β)) (s : OAuth β ι) :
    Prop where
  pending : ∀ id a, s.store.pending.get? id = some a → ∃ b, Did log b id a []
  consent : ∀ b id, (CONSENT_COOKIE, id) ∈ s.jars b → ∃ a, Did log b id a []
  callback : ∀ b v, (CALLBACK_COOKIE, v) ∈ s.jars b →
    ∃ id a, v = callbackBinding id ∧ Did log b id a [.confirmed b id]
  stages : ∀ i stage, s.requests i = some stage → StageBacked gw es log stage
  codes : ∀ code g, s.store.codes.get? code = some g → CodeBacked gw es log code g

/-- What was done to earn a token. -/
structure Earned (gw : Gateway) (es : List (OAuthEvent β ι)) (log : List (Deed β)) (code : String)
    (f : Form) (token : String) (b : β) (id : String) (a : Authorization) (login : Login) : Prop where
  asked : Began gw es b id a
  verified : LoggedIn gw es a login
  done : ∃ upstream, Did log b id a (signIn gw b id a upstream login ++
    [.coded b id code, .redeemed code f (some (token, sessionOf a login))])
  clientId : f.get? "client_id" = some a.clientId
  redirectUri : f.get? "redirect_uri" = some (Web.display a.redirectUri)
  verifier : pkceOk ((f.get? "code_verifier").getD "") a.codeChallenge = true

/-- What is done stands on what was asked. -/
structure Recorded (gw : Gateway) (es : List (OAuthEvent β ι)) (log : List (Deed β)) : Prop where
  began : ∀ b id a, .began b id a ∈ log → Began gw es b id a
  unique : ∀ b id a b' a', .began b id a ∈ log → .began b' id a' ∈ log → b = b' ∧ a = a'
  redeemed : ∀ code f token session, .redeemed code f (some (token, session)) ∈ log →
    ∃ b id a login, session = sessionOf a login ∧ Earned gw es log code f token b id a login

/-! ### It stays so -/

omit [Origin] [Jose] [DecidableEq β] [DecidableEq ι] in
theorem Did.mono (h : Did log b id a ds) (hlog : log.Sublist log') : Did log' b id a ds :=
  List.Sublist.trans h hlog

omit [Origin] [Jose] [DecidableEq β] [DecidableEq ι] in
theorem Did.concat (h : Did log b id a ds) (d : Deed β) : Did (log ++ [d]) b id a (ds ++ [d]) := by
  show ((Deed.began b id a :: ds) ++ [d]).Sublist (log ++ [d])
  exact h.append_right [d]

omit [Origin] [Jose] [DecidableEq β] [DecidableEq ι] in
/-- The last of what followed was done. -/
theorem Did.last {ls : List (Deed β)} (h : Did log b id a (ds ++ ls)) : ls.Sublist log :=
  (List.sublist_append_right (Deed.began b id a :: ds) ls).trans h

omit [Origin] [Jose] [DecidableEq β] [DecidableEq ι] in
theorem Did.began (h : Did log b id a ds) : .began b id a ∈ log := h.subset List.mem_cons_self

omit [Jose] [DecidableEq β] [DecidableEq ι] in
theorem Began.append (h : Began gw es b id a) : Began gw (es ++ fs) b id a := by
  obtain ⟨i, q, client, verifier, now, victims, c, hmem, hasked⟩ := h
  exact ⟨i, q, client, verifier, now, victims, c, List.mem_append_left fs hmem, hasked⟩

omit [DecidableEq β] [DecidableEq ι] in
theorem LoggedIn.append {login : Login} (h : LoggedIn gw es a login) :
    LoggedIn gw (es ++ fs) a login := by
  obtain ⟨i, reply, at_, keys, hmem, hok⟩ := h
  exact ⟨i, reply, at_, keys, List.mem_append_left fs hmem, hok⟩

omit [Jose] [DecidableEq β] [DecidableEq ι] in
/-- The id of an authorization was drawn. -/
theorem Began.id_mem (h : Began gw es b id a) : id ∈ es.filterMap OAuthEvent.id? := by
  obtain ⟨i, q, client, verifier, now, victims, c, hmem, -⟩ := h
  exact List.mem_filterMap.mpr ⟨_, hmem, rfl⟩

omit [Jose] [DecidableEq β] [DecidableEq ι] in
theorem Began.hashes (h : Began gw es b id a) : ∃ e ∈ es, bindingText id ∈ e.hashes := by
  obtain ⟨i, q, client, verifier, now, victims, c, hmem, -⟩ := h
  exact ⟨_, hmem, by simp [OAuthEvent.hashes, Except.toOption]⟩

omit [DecidableEq β] [DecidableEq ι] in
theorem StageBacked.mono {stage : OAuthStage β} (h : StageBacked gw es log stage)
    (hlog : log.Sublist log') : StageBacked gw (es ++ fs) log' stage := by
  cases stage with
  | confirming b id a => exact Did.mono h hlog
  | exchanging b id a form now =>
    obtain ⟨upstream, hform, hdid⟩ := h
    exact ⟨upstream, hform, hdid.mono hlog⟩
  | viewing b id a session now =>
    obtain ⟨upstream, login, hlogin, hsession, hdid⟩ := h
    exact ⟨upstream, login, hlogin.append, hsession, hdid.mono hlog⟩
  | done reply => trivial

omit [DecidableEq β] [DecidableEq ι] in
theorem CodeBacked.mono {code : String} {g : CodeGrant} (h : CodeBacked gw es log code g)
    (hlog : log.Sublist log') : CodeBacked gw (es ++ fs) log' code g := by
  obtain ⟨b, id, a, upstream, login, now, hlogin, hg, hdid⟩ := h
  exact ⟨b, id, a, upstream, login, now, hlogin.append, hg, hdid.mono hlog⟩

omit [DecidableEq β] [DecidableEq ι] in
theorem Backed.mono (h : Backed gw es log s) (hlog : log.Sublist log') :
    Backed gw (es ++ fs) log' s where
  pending id a ha := (h.pending id a ha).imp fun _ hb => hb.mono hlog
  consent b id hc := (h.consent b id hc).imp fun _ ha => ha.mono hlog
  callback b v hc := by
    obtain ⟨id, a, hv, hdid⟩ := h.callback b v hc
    exact ⟨id, a, hv, hdid.mono hlog⟩
  stages i stage hi := (h.stages i stage hi).mono hlog
  codes code g hg := (h.codes code g hg).mono hlog

/-! ### What a step makes of it -/

omit [Origin] [Jose] in
/-- A browser has the cookies it had, and the one it is given. -/
theorem mem_jars_answersIn {i : ι} {b' : β} {reply : Reply} {c : String × String}
    (h : c ∈ (s.answersIn i b reply).jars b') :
    c ∈ s.jars b' ∨ b' = b ∧ ∃ k, reply.setCookie = some k ∧ c = (k.name, k.value) := by
  rw [answersIn_jars, Function.update_apply] at h
  split_ifs at h with hb
  · rw [List.mem_append, Option.mem_toList, Option.map_eq_some_iff] at h
    rcases h with h | ⟨k, hk, rfl⟩
    · exact .inl (hb ▸ h)
    · exact .inr ⟨hb, k, hk, rfl⟩
  · exact .inl h

omit [Web] [Origin] [Jose] in
theorem consentCookie_ne : CONSENT_COOKIE ≠ CALLBACK_COOKIE := by decide

omit [DecidableEq β] [DecidableEq ι] in
theorem Backed.does (h : Backed gw es log s) (d : Deed β) : Backed gw es log (s.does d) :=
  ⟨h.pending, h.consent, h.callback, h.stages, h.codes⟩

omit [DecidableEq β] in
theorem Backed.goes {i : ι} {stage : OAuthStage β} (h : Backed gw es log s)
    (hstage : StageBacked gw es log stage) : Backed gw es log (s.goes i stage) :=
  ⟨h.pending, h.consent, h.callback, stages_update h.stages hstage, h.codes⟩

omit [DecidableEq β] in
theorem Backed.answers {i : ι} {reply : Reply} (h : Backed gw es log s) :
    Backed gw es log (s.answers i reply) := h.goes trivial

/-- A reply sets a cookie for what was done. -/
theorem Backed.answersIn {i : ι} {reply : Reply} (h : Backed gw es log s)
    (hconsent : ∀ k, reply.setCookie = some k → k.name = CONSENT_COOKIE → ∃ a, Did log b k.value a [])
    (hcallback : ∀ k, reply.setCookie = some k → k.name = CALLBACK_COOKIE →
      ∃ id a, k.value = callbackBinding id ∧ Did log b id a [.confirmed b id]) :
    Backed gw es log (s.answersIn i b reply) where
  pending := h.pending
  consent b' id hc := by
    rcases mem_jars_answersIn hc with hc | ⟨rfl, k, hk, heq⟩
    · exact h.consent b' id hc
    · obtain ⟨hname, hvalue⟩ := Prod.mk.inj heq
      obtain ⟨a, ha⟩ := hconsent k hk hname.symm
      exact ⟨a, hvalue ▸ ha⟩
  callback b' v hc := by
    rcases mem_jars_answersIn hc with hc | ⟨rfl, k, hk, heq⟩
    · exact h.callback b' v hc
    · obtain ⟨hname, hvalue⟩ := Prod.mk.inj heq
      obtain ⟨id, a, hid, hdid⟩ := hcallback k hk hname.symm
      exact ⟨id, a, hvalue.trans hid, hdid⟩
  stages := stages_update h.stages trivial
  codes := h.codes

omit [DecidableEq β] [DecidableEq ι] in
/-- What is pending is still so when another authorization has ended. -/
theorem Backed.finish (h : Backed gw es log s) (id : String) (now : Int64) :
    Backed gw es log { s with store := (s.store.finish id now).1 } :=
  ⟨fun x w hx => h.pending x w (SortedMap.get?_of_erase hx), h.consent, h.callback, h.stages, h.codes⟩

omit [Origin] [Jose] [DecidableEq β] [DecidableEq ι] in
theorem get?_of_pending? {store : Store} {now : Int64} (h : store.pending? id now = some a) :
    store.pending.get? id = some a := (Option.filter_eq_some_iff.mp h).1

omit [DecidableEq β] [DecidableEq ι] in
/-- The authorization is of the browser that has its cookie. -/
theorem did_of_consent (hr : Recorded gw es s.log) (h : Backed gw es s.log s) {now : Int64}
    (hcookie : (CONSENT_COOKIE, id) ∈ s.jars b) (ha : s.store.pending? id now = some a) :
    Did s.log b id a [] := by
  obtain ⟨a', hdid⟩ := h.consent b id hcookie
  obtain ⟨b', hdid'⟩ := h.pending id a (get?_of_pending? ha)
  obtain ⟨-, rfl⟩ := hr.unique _ _ _ _ _ hdid'.began hdid.began
  exact hdid

omit [DecidableEq β] [DecidableEq ι] in
/-- The authorization was confirmed in the browser that has its callback's cookie. -/
theorem did_of_callback (hu : Unguessable es) (hr : Recorded gw es s.log) (h : Backed gw es s.log s)
    {now : Int64} (hcookie : (CALLBACK_COOKIE, callbackBinding id) ∈ s.jars b)
    (ha : s.store.pending? id now = some a) : Did s.log b id a [.confirmed b id] := by
  obtain ⟨id', a', hid, hdid⟩ := h.callback b _ hcookie
  obtain ⟨b', hdid'⟩ := h.pending id a (get?_of_pending? ha)
  have hsame : id = id' := callbackBinding_inj hu.hash (hr.began _ _ _ hdid'.began).hashes
    (hr.began _ _ _ hdid.began).hashes hid
  subst hsame
  obtain ⟨-, rfl⟩ := hr.unique _ _ _ _ _ hdid'.began hdid.began
  exact hdid

/-- Every step keeps what is held on deeds. -/
theorem Backed.of_steps (hu : Unguessable es) (hr : Recorded gw es s.log) (h : Backed gw es s.log s)
    (hstep : Steps gw s e t) : Backed gw (es ++ [e]) t.log t := by
  have hsame : Backed gw (es ++ [e]) s.log s := h.mono (List.Sublist.refl _)
  have hlater : ∀ d, Backed gw (es ++ [e]) (s.log ++ [d]) s := fun d =>
    h.mono (List.sublist_append_left _ _)
  cases hstep with
  | refused _ => exact hsame.answers
  | @began i b q client verifier id now victims c a store hidle hasked hstore =>
    have hdid : Did (s.log ++ [.began b id a]) b id a [] := List.sublist_append_right _ _
    have hold := hlater (.began b id a)
    obtain ⟨pending, hpending, rfl⟩ := Option.map_eq_some_iff.mp hstore
    have hmade : Backed gw (es ++ [.authorize i b q client verifier (.ok id) now victims])
        (s.log ++ [.began b id a])
        ({ s with store := { s.store with pending } }.does (.began b id a)) := by
      refine ⟨fun x w hx => ?_, hold.consent, hold.callback, hold.stages, hold.codes⟩
      rcases SortedMap.get?_enter hpending hx with ⟨rfl, rfl⟩ | hx
      · exact ⟨b, hdid⟩
      · exact hold.pending x w hx
    apply hmade.answersIn
    · intro k hk hname
      cases hk
      exact ⟨a, hdid⟩
    · intro k hk hname
      cases hk
      exact absurd hname consentCookie_ne
  | @confirms i b headers f now id a hidle hown hcookie ha =>
    have hmine := hown _ (mem_of_cookie hcookie)
    exact hsame.goes (did_of_consent hr h hmine ha)
  | @confirmed i b id a doc hstage =>
    have hdid : Did s.log b id a [] := h.stages i _ hstage
    apply ((hlater (.confirmed b id)).does _).answersIn
    · intro k hk hname
      cases hk
      exact absurd hname.symm consentCookie_ne
    · intro k hk hname
      cases hk
      exact ⟨id, a, rfl, hdid.concat _⟩
  | lapses _ => exact (hsame.finish _ _).answers
  | @returned i b headers q now id code a hidle hown hcookie ha =>
    have hmine := hown _ (mem_of_cookie hcookie)
    have hdid := did_of_callback hu hr h hmine ha
    have hold := (hlater (.returned b id (exchangeForm gw a code))).finish id now
    exact (hold.does _).goes ⟨code, rfl, hdid.concat _⟩
  | @signedIn i b id a form now at_ reply keys login hstage hlogin =>
    obtain ⟨upstream, rfl, hdid⟩ := h.stages i _ hstage
    have hin : LoggedIn gw (es ++ [.exchanged i reply at_ keys]) a login :=
      ⟨i, reply, at_, keys, by simp, hlogin⟩
    exact ((hlater (.signedIn b id login)).does _).goes ⟨upstream, login, hin, rfl, hdid.concat _⟩
  | @coded i b id a session now tools code victims store hstage hadmitted hstore =>
    obtain ⟨upstream, login, hin, rfl, hdid⟩ := h.stages i _ hstage
    obtain ⟨codes, hcodes, rfl⟩ := Option.map_eq_some_iff.mp hstore
    have hold := hlater (.coded b id code)
    have hmade : Backed gw (es ++ [.viewed i tools (.ok code) victims]) (s.log ++ [.coded b id code])
        ({ s with store := { s.store with codes } }.does (.coded b id code)) := by
      refine ⟨hold.pending, hold.consent, hold.callback, hold.stages, fun x g hx => ?_⟩
      rcases SortedMap.get?_enter hcodes hx with ⟨rfl, rfl⟩ | hx
      · exact ⟨b, id, a, upstream, login, now, hin.append, rfl, hdid.concat _⟩
      · exact hold.codes x g hx
    exact hmade.answers
  | @redeemed i f now drawn persisted code hidle hcode =>
    obtain ⟨hpending, hcodes⟩ := @redeem_store _ _ gw s.store code f now drawn persisted
    have hold := hlater (.redeemed code f (redeem gw s.store code f now drawn persisted).2.2)
    refine Backed.answers ⟨fun x w hx => ?_, hold.consent, hold.callback, hold.stages,
      fun x g hx => ?_⟩
    · exact hold.pending x w (hpending ▸ hx)
    · exact hold.codes x g (SortedMap.get?_of_erase (hcodes ▸ hx))

/-! ### What is redeemed -/

omit [Jose] [DecidableEq β] [DecidableEq ι] in
/-- A token is given out for a code that is held, to a request that may have it. -/
theorem redeem_eq_some {store : Store} {code token : String} {f : Form} {now : Int64}
    {drawn : Except Anyhow String} {persisted : Bool} {session : Session}
    (h : (redeem gw store code f now drawn persisted).2.2 = some (token, session)) :
    ∃ g n, store.codes.get? code = some g ∧ redeemable gw g f now = .ok n ∧ drawn = .ok token ∧
      session = g.session ∧
      (redeem gw store code f now drawn persisted).1.tokens =
        (store.tokens.retain fun s => s.notAfter > now).insert (tokenHash token) session := by
  unfold redeem at h
  split at h
  · cases h
  · rename_i store' g hcode
    have hheld := (Option.filter_eq_some_iff.mp (Prod.mk.inj hcode).2).1
    split at h
    · cases h
    · rename_i n hn
      split at h
      · cases h
      · rename_i t
        dsimp only at h
        split_ifs at h with hp
        obtain ⟨rfl, rfl⟩ := Prod.mk.inj (Option.some.inj h)
        refine ⟨g, n, hheld, hn, rfl, rfl, ?_⟩
        obtain ⟨rfl, -⟩ := Prod.mk.inj hcode
        simp only [redeem, hcode, hn, hp, if_true]
        rfl

omit [DecidableEq β] [DecidableEq ι] in
theorem Earned.mono {code token : String} {f : Form} {login : Login}
    (h : Earned gw es log code f token b id a login) (hlog : log.Sublist log') :
    Earned gw (es ++ fs) log' code f token b id a login where
  asked := h.asked.append
  verified := h.verified.append
  done := h.done.imp fun _ hdid => hdid.mono hlog
  clientId := h.clientId
  redirectUri := h.redirectUri
  verifier := h.verifier

omit [DecidableEq β] [DecidableEq ι] in
/-- What a token is given out for. -/
theorem earned_of_redeem (hr : Recorded gw es s.log) (h : Backed gw es s.log s)
    {code token : String} {f : Form} {now : Int64} {drawn : Except Anyhow String} {persisted : Bool}
    {session : Session}
    (hgiven : (redeem gw s.store code f now drawn persisted).2.2 = some (token, session)) :
    ∃ b id a login, session = sessionOf a login ∧ Earned gw (es ++ fs)
      (s.log ++ [.redeemed code f (some (token, session))]) code f token b id a login := by
  obtain ⟨g, n, hheld, hredeemable, -, rfl, -⟩ := redeem_eq_some hgiven
  obtain ⟨b, id, a, upstream, login, issued, hlogin, rfl, hdid⟩ := h.codes code g hheld
  obtain ⟨hclient, hredirect, hverifier, -, -⟩ := redeemable_eq_ok.mp hredeemable
  refine ⟨b, id, a, login, rfl, (hr.began _ _ _ hdid.began).append, hlogin.append, ⟨upstream, ?_⟩,
    hclient, hredirect, hverifier⟩
  exact hdid.concat _

omit [DecidableEq β] [DecidableEq ι] in
theorem Recorded.concat (h : Recorded gw es log)
    (hbegan : ∀ b id a, d = .began b id a → Began gw (es ++ fs) b id a ∧
      ∀ b' a', .began b' id a' ∉ log)
    (hredeemed : ∀ code f token session, d = .redeemed code f (some (token, session)) →
      ∃ b id a login, session = sessionOf a login ∧
        Earned gw (es ++ fs) (log ++ [d]) code f token b id a login) :
    Recorded gw (es ++ fs) (log ++ [d]) where
  began b id a hmem := by
    rcases List.mem_append.mp hmem with hmem | hmem
    · exact (h.began b id a hmem).append
    · exact (hbegan b id a (List.mem_singleton.mp hmem).symm).1
  unique b id a b' a' hmem hmem' := by
    rcases List.mem_append.mp hmem with hold | hnew
    · rcases List.mem_append.mp hmem' with hold' | hnew'
      · exact h.unique b id a b' a' hold hold'
      · exact absurd hold ((hbegan b' id a' (List.mem_singleton.mp hnew').symm).2 b a)
    · have hd := List.mem_singleton.mp hnew
      rcases List.mem_append.mp hmem' with hold' | hnew'
      · exact absurd hold' ((hbegan b id a hd.symm).2 b' a')
      · have hd' := List.mem_singleton.mp hnew'
        rw [← hd] at hd'
        obtain ⟨rfl, -, rfl⟩ := Deed.began.inj hd'
        exact ⟨rfl, rfl⟩
  redeemed code f token session hmem := by
    rcases List.mem_append.mp hmem with hmem | hmem
    · obtain ⟨b, id, a, login, hsession, hearned⟩ := h.redeemed code f token session hmem
      exact ⟨b, id, a, login, hsession, hearned.mono (List.sublist_append_left _ _)⟩
    · exact hredeemed code f token session (List.mem_singleton.mp hmem).symm

omit [DecidableEq β] [DecidableEq ι] in
/-- A deed that neither begins an authorization nor gives out a token. -/
theorem Recorded.concat_of_ne (h : Recorded gw es log) (hbegan : ∀ b id a, d ≠ .began b id a)
    (hredeemed : ∀ code f r, d ≠ .redeemed code f (some r)) : Recorded gw (es ++ fs) (log ++ [d]) :=
  h.concat (fun b id a hd => absurd hd (hbegan b id a))
    fun code f token session hd => absurd hd (hredeemed code f (token, session))

omit [DecidableEq β] [DecidableEq ι] in
theorem Recorded.append (h : Recorded gw es log) : Recorded gw (es ++ fs) log where
  began b id a hmem := (h.began b id a hmem).append
  unique := h.unique
  redeemed code f token session hmem := by
    obtain ⟨b, id, a, login, hsession, hearned⟩ := h.redeemed code f token session hmem
    exact ⟨b, id, a, login, hsession, hearned.mono (List.Sublist.refl _)⟩

theorem Recorded.of_steps (hu : Unguessable (es ++ [e])) (hr : Recorded gw es s.log)
    (h : Backed gw es s.log s) (hstep : Steps gw s e t) : Recorded gw (es ++ [e]) t.log := by
  cases hstep with
  | refused _ => exact hr.append
  | @began i b q client verifier id now victims c a store hidle hasked hstore =>
    apply hr.concat
    · intro b' id' a' hd
      obtain ⟨rfl, rfl, rfl⟩ := Deed.began.inj hd
      refine ⟨⟨i, q, client, verifier, now, victims, c, by simp, hasked⟩, fun b' a' hold => ?_⟩
      exact notMem_of_nodup hu.ids rfl (hr.began b' id a' hold).id_mem
    · intro code f token session hd
      cases hd
  | confirms _ _ _ _ => exact hr.append
  | confirmed _ => exact hr.concat_of_ne (fun _ _ _ hd => by cases hd) fun _ _ _ hd => by cases hd
  | lapses _ => exact hr.append
  | returned _ _ _ _ =>
    exact hr.concat_of_ne (fun _ _ _ hd => by cases hd) fun _ _ _ hd => by cases hd
  | signedIn _ _ => exact hr.concat_of_ne (fun _ _ _ hd => by cases hd) fun _ _ _ hd => by cases hd
  | coded _ _ _ => exact hr.concat_of_ne (fun _ _ _ hd => by cases hd) fun _ _ _ hd => by cases hd
  | @redeemed i f now drawn persisted code hidle hcode =>
    apply hr.concat
    · intro b' id' a' hd
      cases hd
    · intro code' f' token session hd
      obtain ⟨rfl, rfl, hgiven⟩ := Deed.redeemed.inj hd
      rw [hgiven]
      exact earned_of_redeem hr h hgiven

end

end OAuth

end Wires
