import Wires.Impl.Clients
import Wires.Framework.Signing
import Mathlib.Data.List.Forall2

/-!
# Whom the gateway takes for a client

An id is a client's registration under the gateway's key: looking up what was
registered gives the client back (`registered_register`), and an id whose tag
no registration made is no client's (`registered_of_unforged`). Where a
client's codes may go is exact but for the loopback URIs, whose fragment, user
name and password are not compared (`redirectsExact_iff`).
-/

namespace Wires

namespace OAuth

/-! ## Lists of results -/

theorem mapM_eq_ok {ε α β : Type} {f : α → Except ε β} {as : List α} {bs : List β} :
    as.mapM f = .ok bs ↔ List.Forall₂ (fun a b => f a = .ok b) as bs := by
  induction as generalizing bs with
  | nil => cases bs <;> simp [pure, Except.pure]
  | cons a as ih =>
    rw [List.mapM_cons]
    simp only [bind_eq_ok, pure_eq_ok, ih]
    constructor
    · rintro ⟨b, hb, bs', hbs, rfl⟩
      exact .cons hb hbs
    · rintro (_ | ⟨hb, hbs⟩)
      exact ⟨_, hb, _, hbs, rfl⟩

theorem exists_of_forall₂ {α β : Type} {R : α → β → Prop} {as : List α} {bs : List β}
    (h : List.Forall₂ R as bs) {b : β} (hb : b ∈ bs) : ∃ a ∈ as, R a b := by
  induction h with
  | nil => cases hb
  | cons hab _ ih =>
    rcases List.mem_cons.mp hb with rfl | hb
    · exact ⟨_, List.mem_cons_self, hab⟩
    · obtain ⟨a, ha, hR⟩ := ih hb
      exact ⟨a, List.mem_cons_of_mem _ ha, hR⟩

/-! ## The text of an id -/

theorem splitOnce_append {sep : Char} {cs ds : List Char} (h : sep ∉ cs) :
    splitOnce sep (cs ++ sep :: ds) = some (cs, ds) := splitOnce_eq_some_iff.mpr ⟨rfl, h⟩

/-- A body has no dot. -/
theorem dot_notMem_encode (bs : List UInt8) : '.' ∉ Base64.encode bs := by
  intro h
  obtain ⟨n, hn⟩ := Base64.value_of_mem_encode h
  have hdot : Base64.value '.' = none := by decide
  rw [hdot] at hn
  cases hn

theorem idParts_eq_some {id : String} {body mac : List Char} (h : idParts id = some (body, mac)) :
    id.toList = DCR_PREFIX.toList ++ (body ++ '.' :: mac) := by
  unfold idParts at h
  split_ifs at h with hpre
  obtain ⟨rest, hrest⟩ := List.isPrefixOf_iff_prefix.mp hpre
  rw [← hrest, List.drop_left] at h
  rw [← hrest, eq_of_splitOnce h]

section

variable [Hmac] {key : Hmac.Key}

theorem toList_clientId (body : List Char) : (clientId key body).toList = DCR_PREFIX.toList ++
    (body ++ '.' :: Base64.encode (Hmac.sign key (utf8 body)).toList) := by
  simp [clientId, String.toList_append]

theorem idParts_clientId {body : List Char} (h : '.' ∉ body) :
    idParts (clientId key body) = some (body, Base64.encode (Hmac.sign key (utf8 body)).toList) := by
  unfold idParts
  rw [toList_clientId, if_pos (List.isPrefixOf_iff_prefix.mpr (List.prefix_append _ _)),
    List.drop_left, splitOnce_append h]

end

theorem reads_registered (reg : Registered) : Reads reg := reads_of_obj rfl fun _ _ hσ hp =>
  openFields_bind hp (by simp) (by simp)
    (field_bind hσ (reads_string _) rfl
      (field_bind hσ (reads_list fun s _ => reads_string s) rfl
        (field_bind hσ (reads_int64 _) rfl rfl)))

/-- A body decodes to the registration it is of. -/
theorem decode_body (reg : Registered) :
    (Base64.decode reg.body).bind fromSlice = some reg := by
  rw [Registered.body, Base64.decode_encode, Option.bind_some, fromSlice, utf8Decode_utf8,
    Option.bind_some, (reads_registered reg).text]

/-! ## Registered clients -/

section

variable [Web] [Origin] [UrlParts]

theorem registerUri_eq_ok {raw : String} {uri : Web.Url} :
    registerUri raw = .ok uri ↔ Web.parse raw = .ok uri ∧ validRedirectUri uri = true := by
  unfold registerUri
  simp only [bind_eq_ok, mapErr_eq_ok, ensure_eq_ok, exists_const, pure_eq_ok]
  constructor
  · rintro ⟨u, hu, hvalid, rfl⟩
    exact ⟨hu, hvalid⟩
  · rintro ⟨hu, hvalid⟩
    exact ⟨uri, hu, hvalid, rfl⟩

variable [Hmac] {key : Hmac.Key} {req : RegistrationRequest} {now : Int64} {c : Client} {id : String}

/-- What a registration gives. -/
theorem of_register (h : register key req now = .ok c) :
    c.id = clientId key (Registered.body ⟨c.name, req.redirectUris, now⟩) ∧
      List.Forall₂ (fun raw uri => Web.parse raw = .ok uri ∧ validRedirectUri uri = true)
        req.redirectUris c.redirectUris := by
  unfold register at h
  simp only [bind_eq_ok, ensure_eq_ok, exists_const, pure_eq_ok] at h
  obtain ⟨-, -, -, uris, huris, rfl⟩ := h
  refine ⟨rfl, ?_⟩
  simpa only [registerUri_eq_ok] using mapM_eq_ok.mp huris

/-- Looking up the id that a registration gave gives the client that was registered. -/
theorem registered_register (h : register key req now = .ok c) : registered key c.id = .ok c := by
  obtain ⟨hid, huris⟩ := of_register h
  have hparse : req.redirectUris.mapM Web.parse = .ok c.redirectUris :=
    mapM_eq_ok.mpr (huris.imp fun _ _ hu => hu.1)
  have hdot : '.' ∉ Registered.body ⟨c.name, req.redirectUris, now⟩ := dot_notMem_encode _
  unfold registered
  rw [hid, idParts_clientId hdot]
  simp only [orError_some, ok_bind, Base64.decode_encode, Hmac.verify, decide_true, decode_body,
    hparse, ensure_of]
  rw [← hid]
  rfl

/-- The bodies that registrations under a key made a tag for. -/
def madeBodies (key : Hmac.Key) (made : List (RegistrationRequest × Int64)) : Set (List Char) :=
  {body | ∃ r ∈ made, ∃ c, register key r.1 r.2 = .ok c ∧
    body = Registered.body ⟨c.name, r.1.redirectUris, r.2⟩}

/-- The tag of an id, where it is the one of its body, is one that a registration made. -/
def Unforged (key : Hmac.Key) (made : List (RegistrationRequest × Int64)) (id : String) : Prop :=
  ∀ body mac tag, idParts id = some (body, mac) → Base64.decode mac = some tag →
    Hmac.verify key (utf8 body) tag = true → body ∈ madeBodies key made

/-- An id that is looked up is one that a registration gave, and the client is the one registered. -/
theorem registered_of_unforged {made : List (RegistrationRequest × Int64)}
    (hunforged : OAuth.Unforged key made id) (h : registered key id = .ok c) :
    ∃ r ∈ made, register key r.1 r.2 = .ok c := by
  have hall := h
  unfold registered at h
  simp only [bind_eq_ok, orError_eq_ok, ensure_eq_ok, exists_const] at h
  obtain ⟨⟨body, mac⟩, hparts, tag, htag, hverify, -⟩ := h
  replace htag : Base64.decode mac = some tag := htag
  obtain ⟨r, hr, c', hc', hbody⟩ := hunforged body mac tag hparts htag hverify
  -- The id is the registration's, so that it names the client registered.
  have hid : id = c'.id := by
    have hmac : mac = Base64.encode (Hmac.sign key (utf8 body)).toList := by
      rw [← Base64.encode_of_decode htag, of_decide_eq_true hverify]
    refine String.toList_injective ?_
    rw [idParts_eq_some hparts, (of_register hc').1, ← hbody, toList_clientId, hmac]
  rw [hid, registered_register hc'] at hall
  obtain rfl := Except.ok.inj hall
  exact ⟨r, hr, hc'⟩

end

/-! ## Redirect URIs -/

/-- What a URL's text says of it, and its host's of an `http` one's host. -/
structure UrlLaws [Web] [Origin] : Prop where
  display_injective : Function.Injective Web.display
  host_of_hostStr : ∀ u v : Web.Url, Web.scheme u = "http" → Web.scheme v = "http" →
    Origin.hostStr u = Origin.hostStr v → Web.host u = Web.host v

section

variable [Web] [Origin] [UrlParts]

/-- `http` on a loopback host. -/
def HttpLoopback (uri : Web.Url) : Prop := Web.scheme uri = "http" ∧ Web.isLoopback uri = true

/-- One user, password and fragment. -/
structure SameRest (r uri : Web.Url) : Prop where
  username : UrlParts.username r = UrlParts.username uri
  password : UrlParts.password r = UrlParts.password uri
  fragment : Origin.fragment r = Origin.fragment uri

/-- A registered `http` loopback URI, and one with its scheme, host, path and query. -/
structure SameEndpoint (r uri : Web.Url) : Prop where
  loopback : HttpLoopback r
  scheme : Web.scheme r = Web.scheme uri
  host : Origin.hostStr r = Origin.hostStr uri
  path : Origin.path r = Origin.path uri
  query : Origin.query r = Origin.query uri

/-- `uri` is a registered redirect URI, or both are `http` on a loopback host and equal in every
component but the port. -/
def Client.Registers (client : Client) (uri : Web.Url) : Prop :=
  ∃ r ∈ client.redirectUris, r = uri ∨
    (HttpLoopback r ∧ HttpLoopback uri ∧ Web.scheme r = Web.scheme uri ∧
      Origin.hostStr r = Origin.hostStr uri ∧ Origin.path r = Origin.path uri ∧
      Origin.query r = Origin.query uri ∧ SameRest r uri)

/-- Codes go to `uri` exactly if it is registered, and then with the user, password and fragment of
a registered URI. -/
def Client.RedirectsExact (client : Client) (uri : Web.Url) : Prop :=
  (client.allowsRedirect uri = true ↔ client.Registers uri) ∧
    (client.allowsRedirect uri = true → ∃ r ∈ client.redirectUris, SameRest r uri)

/-- Where `uri` has the scheme, host, path and query of a registered `http` loopback URI, it has the
user, password and fragment of one such. -/
def Client.NothingAdded (client : Client) (uri : Web.Url) : Prop :=
  (∃ r ∈ client.redirectUris, SameEndpoint r uri) →
    ∃ r ∈ client.redirectUris, SameEndpoint r uri ∧ SameRest r uri

variable {client : Client} {uri r : Web.Url}

omit [UrlParts] in
theorem SameEndpoint.loopback_right (laws : UrlLaws) (h : SameEndpoint r uri) : HttpLoopback uri := by
  obtain ⟨hhttp, hloop⟩ := h.loopback
  have hhttp' : Web.scheme uri = "http" := h.scheme.symm.trans hhttp
  refine ⟨hhttp', ?_⟩
  rw [Web.isLoopback, ← laws.host_of_hostStr r uri hhttp hhttp' h.host]
  exact hloop

omit [UrlParts] in
/-- What is compared. -/
theorem allowsRedirect_iff (laws : UrlLaws) : client.allowsRedirect uri = true ↔
    ∃ r ∈ client.redirectUris, r = uri ∨ SameEndpoint r uri := by
  unfold Client.allowsRedirect
  rw [List.any_eq_true]
  refine exists_congr fun r => and_congr_right fun _ => ?_
  simp only [Bool.or_eq_true, Bool.and_eq_true, decide_eq_true_eq]
  constructor
  · rintro (heq | ⟨⟨⟨⟨⟨hhttp, hloop⟩, hscheme⟩, hhost⟩, hpath⟩, hquery⟩)
    · exact .inl (laws.display_injective heq)
    · exact .inr ⟨⟨hhttp, hloop⟩, hscheme, hhost, hpath, hquery⟩
  · rintro (rfl | h)
    · exact .inl rfl
    · exact .inr ⟨⟨⟨⟨⟨h.loopback.1, h.loopback.2⟩, h.scheme⟩, h.host⟩, h.path⟩, h.query⟩

theorem registers_iff (laws : UrlLaws) : client.Registers uri ↔
    ∃ r ∈ client.redirectUris, r = uri ∨ SameEndpoint r uri ∧ SameRest r uri := by
  refine exists_congr fun r => and_congr_right fun _ => or_congr_right ?_
  constructor
  · rintro ⟨hr, -, hscheme, hhost, hpath, hquery, hrest⟩
    exact ⟨⟨hr, hscheme, hhost, hpath, hquery⟩, hrest⟩
  · rintro ⟨h, hrest⟩
    exact ⟨h.loopback, h.loopback_right laws, h.scheme, h.host, h.path, h.query, hrest⟩

/-- Codes go only where the client registered, exactly if nothing is added to a loopback URI. -/
theorem redirectsExact_iff_nothingAdded (laws : UrlLaws) :
    client.RedirectsExact uri ↔ client.NothingAdded uri := by
  unfold Client.RedirectsExact Client.NothingAdded
  rw [allowsRedirect_iff laws, registers_iff laws]
  constructor
  · rintro ⟨hexact, -⟩ ⟨r, hr, hsame⟩
    obtain ⟨r', hr', rfl | hboth⟩ := hexact.mp ⟨r, hr, .inr hsame⟩
    · exact ⟨r', hr', ⟨hsame.loopback_right laws, rfl, rfl, rfl, rfl⟩, rfl, rfl, rfl⟩
    · exact ⟨r', hr', hboth⟩
  · intro hadded
    have hregisters : (∃ r ∈ client.redirectUris, r = uri ∨ SameEndpoint r uri) →
        ∃ r ∈ client.redirectUris, r = uri ∨ SameEndpoint r uri ∧ SameRest r uri := by
      rintro ⟨r, hr, rfl | hsame⟩
      · exact ⟨r, hr, .inl rfl⟩
      · obtain ⟨r', hr', hboth⟩ := hadded ⟨r, hr, hsame⟩
        exact ⟨r', hr', .inr hboth⟩
    refine ⟨⟨hregisters, ?_⟩, fun h => ?_⟩
    · rintro ⟨r, hr, heq | ⟨hsame, -⟩⟩
      · exact ⟨r, hr, .inl heq⟩
      · exact ⟨r, hr, .inr hsame⟩
    · obtain ⟨r, hr, rfl | ⟨-, hrest⟩⟩ := hregisters h
      · exact ⟨r, hr, rfl, rfl, rfl⟩
      · exact ⟨r, hr, hrest⟩

/-! ## Whoever is accepted -/

theorem metadataUri_eq_ok {u : Json} (h : metadataUri u = .ok uri) : validRedirectUri uri = true := by
  obtain ⟨-, hvalid⟩ := Option.filter_eq_some_iff.mp (orError_eq_ok.mp h)
  exact hvalid

/-- What a metadata document gives. -/
theorem of_validateMetadata {url : Web.Url} {body : List UInt8} {c : Client}
    (h : validateMetadata url body = .ok c) :
    c.id = Web.display url ∧ ∀ r ∈ c.redirectUris, validRedirectUri r = true := by
  unfold validateMetadata at h
  simp only [bind_eq_ok, orError_eq_ok, ensure_eq_ok, exists_const, forEach_eq_ok, pure_eq_ok] at h
  obtain ⟨doc, -, -, -, name, -, -, uris, -, -, redirectUris, huris, rfl⟩ := h
  refine ⟨rfl, fun r hr => ?_⟩
  obtain ⟨u, -, hu⟩ := exists_of_forall₂ (mapM_eq_ok.mp huris) hr
  exact metadataUri_eq_ok hu

variable [Hmac]

/-- A client the gateway takes, from its registration or its metadata document. -/
def Accepted (key : Hmac.Key) (made : List (RegistrationRequest × Int64)) (c : Client) : Prop :=
  ∃ fetched id, OAuth.Unforged key made id ∧ clientOf key fetched id = .ok c

/-- Every redirect URI of a client that is accepted may be registered. -/
theorem Accepted.valid {key : Hmac.Key} {made : List (RegistrationRequest × Int64)} {c : Client}
    (h : Accepted key made c) : ∀ r ∈ c.redirectUris, validRedirectUri r = true := by
  obtain ⟨fetched, id, hunforged, hclient⟩ := h
  unfold clientOf at hclient
  split_ifs at hclient with hurl
  · unfold metadataClient at hclient
    simp only [bind_eq_ok, mapErr_eq_ok] at hclient
    obtain ⟨url, -, body, -, hvalidate⟩ := hclient
    exact (of_validateMetadata hvalidate).2
  · intro r hr
    obtain ⟨made, -, hregister⟩ := registered_of_unforged hunforged hclient
    obtain ⟨raw, -, -, hvalid⟩ := exists_of_forall₂ (of_register hregister).2 hr
    exact hvalid

/-- Looking up what was registered gives it back, an id that no registration gave is refused, a
client has only URIs that may be registered, and its codes go only where it registered, exactly if
nothing is added to a loopback URI. -/
theorem redirectsExact_iff (laws : UrlLaws) (key : Hmac.Key) :
    (∀ req now c, register key req now = .ok c → registered key c.id = .ok c) ∧
    (∀ made id c, OAuth.Unforged key made id → registered key id = .ok c →
      c.id = id ∧ ∃ r ∈ made, register key r.1 r.2 = .ok c) ∧
    (∀ made c, Accepted key made c → ∀ r ∈ c.redirectUris, validRedirectUri r = true) ∧
    ∀ (c : Client) (uri : Web.Url), c.RedirectsExact uri ↔ c.NothingAdded uri := by
  refine ⟨fun _ _ _ => registered_register, fun made id c hunforged h => ⟨?_, ?_⟩,
    fun _ _ => Accepted.valid, fun _ _ => redirectsExact_iff_nothingAdded laws⟩
  · unfold registered at h
    simp only [bind_eq_ok, pure_eq_ok] at h
    obtain ⟨-, -, -, -, -, -, -, -, -, -, rfl⟩ := h
    rfl
  · exact registered_of_unforged hunforged h

end

/-! ## A loopback URI with something added -/

section Sample

/-- A native client's redirect URI. -/
def nativeUri : String := "http://127.0.0.1/cb"

/-- It on another port, with a user, a password and a fragment. -/
def strayUri : String := "http://u:p@127.0.0.1:9/cb#f"

/-- The two URLs, and others like the first. -/
@[reducible] def loopbackWeb : Web where
  Url := String
  parse := .ok
  scheme _ := "http"
  host _ := some (.ipv4 0x7f000001)
  display := id
  quoted := id
  serdeError _ := ""
  utf8Error _ := ""

attribute [local instance] loopbackWeb

@[reducible] def loopbackOrigin : Origin where
  sha256 := checksum
  hostStr _ := some "127.0.0.1"
  path _ := "/cb"
  query _ := none
  fragment (u : String) := if u = strayUri then some "f" else none
  origin (u : String) := if u = strayUri then "http://127.0.0.1:9" else "http://127.0.0.1"
  extendPairs u _ := u

@[reducible] def loopbackParts : UrlParts where
  hasHost _ := true
  username (u : String) := if u = strayUri then "u" else ""
  password (u : String) := if u = strayUri then some "p" else none

@[reducible] def plainHmac : Hmac where
  Key := UInt8
  sign k m := checksum (k :: m)

attribute [local instance] loopbackOrigin loopbackParts plainHmac

def sampleKey : Hmac.Key := (7 : UInt8)

theorem loopbackLaws : UrlLaws := ⟨fun _ _ h => h, fun _ _ _ _ _ => rfl⟩

theorem redirectsExact_iff_sample :
    (∀ req now c, register sampleKey req now = .ok c → registered sampleKey c.id = .ok c) ∧
    (∀ made id c, OAuth.Unforged sampleKey made id → registered sampleKey id = .ok c →
      c.id = id ∧ ∃ r ∈ made, register sampleKey r.1 r.2 = .ok c) ∧
    (∀ made c, Accepted sampleKey made c → ∀ r ∈ c.redirectUris, validRedirectUri r = true) ∧
    ∀ (c : Client) (uri : Web.Url), c.RedirectsExact uri ↔ c.NothingAdded uri :=
  redirectsExact_iff loopbackLaws sampleKey

def nativeRequest : RegistrationRequest := ⟨[nativeUri], none⟩

/-- A code goes to the native client with a fragment and credentials it did not register. -/
theorem not_redirectsExact : ¬∀ (req : RegistrationRequest) (now : Int64) (c : Client)
    (uri : Web.Url), register sampleKey req now = .ok c → c.RedirectsExact uri := by
  intro hall
  obtain ⟨c, hc⟩ : ∃ c, register sampleKey nativeRequest 0 = .ok c := ⟨_, rfl⟩
  have huris : c.redirectUris = [nativeUri] := by
    obtain ⟨uri, rest, huri, hrest, hcons⟩ := List.forall₂_cons_left_iff.mp (of_register hc).2
    obtain rfl := List.forall₂_nil_left_iff.mp hrest
    rw [hcons, ← Except.ok.inj huri.1]
  have hallows : c.allowsRedirect strayUri = true := by
    unfold Client.allowsRedirect
    rw [huris]
    decide
  obtain ⟨r, hr, hrest⟩ := (hall nativeRequest 0 c strayUri hc).2 hallows
  rw [huris, List.mem_singleton] at hr
  have huser := hrest.username
  rw [hr] at huser
  exact absurd huser (by decide)

end Sample

end OAuth

end Wires
