import Wires.Impl.Metadata
import Wires.Proof.Addr
import Wires.Proof.Clients

/-!
# Where clients' metadata documents come from

In any run of the fetcher a client is answered from a document that is the whole
of what was sent for its URL less than `METADATA_TTL` before it was asked for,
and that names that URL (`client_served`); and whatever the names resolve to,
and whoever's id it is, a request only goes to public addresses
(`connects_public`).
-/

namespace Wires

namespace OAuth

namespace Metadata

section

variable [Web] [Origin] [UrlParts] {ι : Type} {es fs : List (MetadataEvent ι)} {e : MetadataEvent ι}
  {i j : ι} {id : String} {url : Web.Url} {addrs : List IpAddr} {client : Client}

section

variable [DecidableEq ι]

/-- What an event sends to call `i`. -/
def sentTo (i : ι) : MetadataEvent ι → List UInt8
  | .chunk j bytes => if j = i then bytes else []
  | _ => []

/-- What was sent to call `i`. -/
def sent (i : ι) (es : List (MetadataEvent ι)) : List UInt8 := es.flatMap (sentTo i)

omit [Web] [Origin] [UrlParts] in
theorem sent_concat : sent i (es ++ [e]) = sent i es ++ sentTo i e := by
  simp [sent]

end

/-- The URL that `id` is, and the addresses that its host was found at, all of them public. -/
structure Found (es : List (MetadataEvent ι)) (i : ι) (id : String) (url : Web.Url)
    (addrs : List IpAddr) : Prop where
  url : fetchableMetadataUrl id = .ok url
  resolved : .resolved i addrs ∈ es
  isPublic : ∀ a ∈ addrs, a.Public

theorem Found.append (h : Found es i id url addrs) : Found (es ++ fs) i id url addrs :=
  ⟨h.url, List.mem_append_left _ h.resolved, h.isPublic⟩

section

variable [DecidableEq ι] {s t : Metadata ι}

/-- The client is what a document makes of `id` that was sent, all of it, until `at_`, from a public
address that the host of the URL was found at. -/
def Served (es : List (MetadataEvent ι)) (id : String) (client : Client) (at_ : Nat) : Prop :=
  ∃ es₁ j victims es₂ url addrs ip, es = es₁ ++ .ends j at_ victims :: es₂ ∧
    Found es₁ j id url addrs ∧ ip ∈ addrs ∧ .connected j ip ∈ es₁ ∧
    (sent j es₁).length ≤ MAX_METADATA_BYTES ∧ validateMetadata url (sent j es₁) = .ok client

theorem Served.append {at_ : Nat} (h : Served es id client at_) : Served (es ++ fs) id client at_ := by
  obtain ⟨es₁, j, victims, es₂, url, addrs, ip, rfl, hrest⟩ := h
  exact ⟨es₁, j, victims, es₂ ++ fs, url, addrs, ip, by simp, hrest⟩

/-- Call `i` for `id` began, not after `clock`. -/
def Asked (es : List (MetadataEvent ι)) (clock : Nat) (i : ι) (id : String) : Prop :=
  ∃ now, .client i id now ∈ es ∧ now ≤ clock

/-- What is so of a call where it is. -/
def Stands (es : List (MetadataEvent ι)) (clock : Nat) (i : ι) : Option MetadataStage → Prop
  | none => sent i es = []
  | some (.resolves id url) =>
    Asked es clock i id ∧ fetchableMetadataUrl id = .ok url ∧ sent i es = []
  | some (.sends id url addrs) => Asked es clock i id ∧ Found es i id url addrs ∧ sent i es = []
  | some (.reads id url addrs ip body) =>
    Asked es clock i id ∧ Found es i id url addrs ∧ ip ∈ addrs ∧ .connected i ip ∈ es ∧
      body = sent i es ∧ body.length ≤ MAX_METADATA_BYTES
  | some (.done id (.ok client)) =>
    ∃ now at_, .client i id now ∈ es ∧ Served es id client at_ ∧ now < at_ + METADATA_TTL
  | some (.done _ (.error _)) => True

omit [Web] [Origin] [UrlParts] [DecidableEq ι] in
theorem Asked.append {clock clock' : Nat} (h : Asked es clock i id) (hclock : clock ≤ clock') :
    Asked (es ++ fs) clock' i id := by
  obtain ⟨now, hmem, hle⟩ := h
  exact ⟨now, List.mem_append_left _ hmem, by omega⟩

/-- A step that sends call `i` nothing leaves it where it is. -/
theorem Stands.concat {clock clock' : Nat} {stage : Option MetadataStage} (h : Stands es clock i stage)
    (hquiet : sentTo i e = []) (hclock : clock ≤ clock') : Stands (es ++ [e]) clock' i stage := by
  have hsent : sent i (es ++ [e]) = sent i es := by rw [sent_concat, hquiet, List.append_nil]
  cases stage with
  | none => exact hsent.trans h
  | some stage =>
    cases stage with
    | resolves id url => exact ⟨h.1.append hclock, h.2.1, hsent.trans h.2.2⟩
    | sends id url addrs => exact ⟨h.1.append hclock, h.2.1.append, hsent.trans h.2.2⟩
    | reads id url addrs ip body =>
      obtain ⟨hasked, hfound, hip, hconnected, hbody, hlength⟩ := h
      exact ⟨hasked.append hclock, hfound.append, hip, List.mem_append_left _ hconnected,
        hbody.trans hsent.symm, hlength⟩
    | done id result =>
      cases result with
      | error why => trivial
      | ok client =>
        obtain ⟨now, at_, hmem, hserved, hlt⟩ := h
        exact ⟨now, at_, List.mem_append_left _ hmem, hserved.append, hlt⟩

/-! ## Steps -/

/-- The call an event is of. -/
def call : MetadataEvent ι → ι
  | .client i _ _ | .resolved i _ | .connected i _ | .chunk i _ | .fails i | .ends i _ _ => i

omit [Web] [Origin] [UrlParts] in
theorem sentTo_of_ne (h : i ≠ call e) : sentTo i e = [] := by
  cases e with
  | chunk j bytes => exact if_neg fun heq => h heq.symm
  | _ => rfl

/-- What a step can do. -/
inductive Goes (s : Metadata ι) : MetadataEvent ι → Metadata ι → Prop
  | begins {i : ι} {id : String} {now : Nat} (hnow : s.clock ≤ now) (hi : s.calls i = none) :
    Goes s (.client i id now) (goes { s with clock := now } i (s.begins id now))
  | refused {e : MetadataEvent ι} {id why : String} {clock : Nat} (he : ∀ i ip, e ≠ .connected i ip)
    (hclock : s.clock ≤ clock) :
    Goes s e (goes { s with clock } (call e) (.done id (.error why)))
  | resolved {i : ι} {id : String} {url : Web.Url} {addrs : List IpAddr}
    (hi : s.calls i = some (.resolves id url)) (haddrs : ∀ a ∈ addrs, a.isPublic = true) :
    Goes s (.resolved i addrs) (s.goes i (.sends id url addrs))
  | connected {i : ι} {id : String} {url : Web.Url} {addrs : List IpAddr} {ip : IpAddr}
    (hi : s.calls i = some (.sends id url addrs)) (hip : ip ∈ addrs) :
    Goes s (.connected i ip) (s.goes i (.reads id url addrs ip []))
  | chunk {i : ι} {id : String} {url : Web.Url} {addrs : List IpAddr} {ip : IpAddr}
    {body bytes : List UInt8} (hi : s.calls i = some (.reads id url addrs ip body))
    (hlength : (body ++ bytes).length ≤ MAX_METADATA_BYTES) :
    Goes s (.chunk i bytes) (s.goes i (.reads id url addrs ip (body ++ bytes)))
  | ends {i : ι} {id : String} {url : Web.Url} {addrs : List IpAddr} {ip : IpAddr} {body : List UInt8}
    {now : Nat} {victims : List String} {client : Client} {cache : SortedMap String (Client × Nat)}
    (hnow : s.clock ≤ now) (hi : s.calls i = some (.reads id url addrs ip body))
    (hvalid : validateMetadata url body = .ok client)
    (hcache : s.cache.enter (fun e => now - e.2 < METADATA_TTL) Prod.snd MAX_CACHED_METADATA victims id
      (client, now) = some cache) :
    Goes s (.ends i now victims) (goes { s with cache, clock := now } i (.done id (.ok client)))

theorem goes_of_step (h : s.step e = some t) : Goes s e t := by
  cases e with
  | client i id now =>
    simp only [step] at h
    split_ifs at h with hnow
    split at h
    · rename_i hi
      cases h
      exact .begins (Nat.le_of_not_lt hnow) hi
    · cases h
  | resolved i addrs =>
    simp only [step] at h
    split at h
    · rename_i id url hi
      split_ifs at h with hbad
      · cases h
        exact .refused (by simp) le_rfl
      · cases h
        rw [not_or, not_not, List.all_eq_true] at hbad
        exact .resolved hi hbad.2
    · cases h
  | connected i ip =>
    simp only [step] at h
    split at h
    · rename_i id url addrs hi
      split_ifs at h with hip
      cases h
      exact .connected hi hip
    · cases h
  | chunk i bytes =>
    simp only [step] at h
    split at h
    · rename_i id url addrs ip body hi
      split_ifs at h with hlong
      · cases h
        exact .refused (by simp) le_rfl
      · cases h
        exact .chunk hi (Nat.le_of_not_lt hlong)
    · cases h
  | fails i =>
    simp only [step] at h
    split at h
    · cases h
      exact .refused (by simp) le_rfl
    · cases h
      exact .refused (by simp) le_rfl
    · cases h
      exact .refused (by simp) le_rfl
    · cases h
  | ends i now victims =>
    simp only [step] at h
    split_ifs at h with hnow
    split at h
    · rename_i id url addrs ip body hi
      split at h
      · cases h
        exact .refused (by simp) (Nat.le_of_not_lt hnow)
      · rename_i client hvalid
        obtain ⟨cache, hcache, rfl⟩ := Option.map_eq_some_iff.mp h
        exact .ends (Nat.le_of_not_lt hnow) hi hvalid hcache
    · cases h

/-! ## Runs -/

/-- What is so after every step. -/
structure Good (es : List (MetadataEvent ι)) (s : Metadata ι) : Prop where
  calls : ∀ i, Stands es s.clock i (s.calls i)
  cache : ∀ id client at_, s.cache.get? id = some (client, at_) →
    Served es id client at_ ∧ at_ ≤ s.clock
  bound : s.cache.length ≤ MAX_CACHED_METADATA

theorem good_start : Good [] (start : Metadata ι) where
  calls i := rfl
  cache id client at_ h := by cases h
  bound := Nat.zero_le _

/-- The call of the event comes to a stage, and the cache stays. -/
theorem Good.goes (h : Good es s) (e : MetadataEvent ι) (hi : call e = i) {clock : Nat}
    {stage : MetadataStage} (hclock : s.clock ≤ clock)
    (hstage : Stands (es ++ [e]) clock i (some stage)) :
    Good (es ++ [e]) (Metadata.goes { s with clock } i stage) where
  calls j := by
    show Stands (es ++ [e]) clock j (Function.update s.calls i (some stage) j)
    rw [Function.update_apply]
    split_ifs with hj
    · rw [hj]
      exact hstage
    · exact (h.calls j).concat (sentTo_of_ne (hi ▸ hj)) hclock
  cache id client at_ hget := by
    obtain ⟨hserved, hle⟩ := h.cache id client at_ hget
    exact ⟨hserved.append, hle.trans hclock⟩
  bound := h.bound

/-- What is known of a call that begins. -/
theorem Good.begins (h : Good es s) {now : Nat} (hnow : s.clock ≤ now) (hi : s.calls i = none) :
    Stands (es ++ [.client i id now]) now i (some (s.begins id now)) := by
  have hasked : .client i id now ∈ es ++ [.client i id now] := List.mem_concat_self
  have hsent : sent i (es ++ [.client i id now]) = [] := by
    have hidle := h.calls i
    rw [hi] at hidle
    rw [sent_concat, show sent i es = [] from hidle]
    rfl
  unfold Metadata.begins
  split
  · rename_i client at_ hcached
    obtain ⟨hget, hlive⟩ := Option.filter_eq_some_iff.mp hcached
    obtain ⟨hserved, hle⟩ := h.cache id client at_ hget
    have hlt : now - at_ < METADATA_TTL := of_decide_eq_true hlive
    exact ⟨now, at_, hasked, hserved.append, by omega⟩
  · split
    · trivial
    · rename_i url hurl
      exact ⟨⟨now, hasked, le_rfl⟩, hurl, hsent⟩

theorem Good.step (h : Good es s) (hm : Goes s e t) : Good (es ++ [e]) t := by
  have hself : e ∈ es ++ [e] := List.mem_concat_self
  cases hm with
  | begins hnow hi => exact h.goes _ rfl hnow (h.begins hnow hi)
  | refused _ hclock => exact h.goes e rfl hclock trivial
  | @resolved i id url addrs hi haddrs =>
    have hstage := h.calls i
    rw [hi] at hstage
    obtain ⟨hasked, hurl, hsent⟩ := hstage
    have hfound : Found (es ++ [.resolved i addrs]) i id url addrs :=
      ⟨hurl, hself, fun a ha => a.isPublic_iff.mp (haddrs a ha)⟩
    have hsent' : sent i (es ++ [.resolved i addrs]) = [] := by
      rw [sent_concat, hsent]
      rfl
    exact h.goes (.resolved i addrs) rfl le_rfl ⟨hasked.append le_rfl, hfound, hsent'⟩
  | @connected i id url addrs ip hi hip =>
    have hstage := h.calls i
    rw [hi] at hstage
    obtain ⟨hasked, hfound, hsent⟩ := hstage
    have hsent' : sent i (es ++ [.connected i ip]) = [] := by
      rw [sent_concat, hsent]
      rfl
    exact h.goes (.connected i ip) rfl le_rfl
      ⟨hasked.append le_rfl, hfound.append, hip, hself, hsent'.symm, Nat.zero_le _⟩
  | @chunk i id url addrs ip body bytes hi hlength =>
    have hstage := h.calls i
    rw [hi] at hstage
    obtain ⟨hasked, hfound, hip, hconnected, hbody, -⟩ := hstage
    have hsent' : sent i (es ++ [.chunk i bytes]) = body ++ bytes := by
      rw [sent_concat, hbody]
      exact congrArg _ (if_pos rfl)
    exact h.goes (.chunk i bytes) rfl le_rfl ⟨hasked.append le_rfl, hfound.append, hip,
      List.mem_append_left _ hconnected, hsent'.symm, hlength⟩
  | @ends i id url addrs ip body now victims client cache hnow hi hvalid hcache =>
    have hstage := h.calls i
    rw [hi] at hstage
    obtain ⟨⟨asked, hasked, hle⟩, hfound, hip, hconnected, rfl, hlength⟩ := hstage
    have hserved : Served (es ++ [.ends i now victims]) id client now :=
      ⟨es, i, victims, [], url, addrs, ip, rfl, hfound, hip, hconnected, hlength, hvalid⟩
    have httl : 0 < METADATA_TTL := by decide
    have hdone : Stands (es ++ [.ends i now victims]) now i (some (.done id (.ok client))) :=
      ⟨asked, now, List.mem_append_left _ hasked, hserved, by omega⟩
    have hgood := h.goes (.ends i now victims) rfl hnow hdone
    refine ⟨hgood.calls, fun x c at_ hget => ?_, SortedMap.length_enter hcache⟩
    rcases SortedMap.get?_enter hcache hget with ⟨rfl, heq⟩ | hold
    · cases heq
      exact ⟨hserved, le_rfl⟩
    · obtain ⟨hold, hat⟩ := h.cache x c at_ hold
      exact ⟨hold.append, hat.trans hnow⟩

theorem good_of_run (hrun : run step start es = some s) : Good es s :=
  run_induction (motive := Good) good_start (fun _ _ _ _ _ h hs => h.step (goes_of_step hs)) hrun

/-- **What a client is answered.** In any run of the fetcher, a call that answers a client for `id`
was given it by a document that `id` is the URL of: all that was sent, in no more than so many
bytes, by a public address that the URL's host was found at, and that names its own URL; it came
less than `METADATA_TTL` before the call began, or after. No more documents are held than may be. -/
theorem client_served (hrun : run step start es = some s)
    (hdone : s.calls i = some (.done id (.ok client))) :
    (∃ now at_, .client i id now ∈ es ∧ now < at_ + METADATA_TTL ∧
      ∃ es₁ j victims es₂ url addrs ip, es = es₁ ++ .ends j at_ victims :: es₂ ∧
        .resolved j addrs ∈ es₁ ∧ .connected j ip ∈ es₁ ∧ ip ∈ addrs ∧ (∀ a ∈ addrs, a.Public) ∧
        (sent j es₁).length ≤ MAX_METADATA_BYTES ∧ fetchableMetadataUrl id = .ok url ∧
        client.id = Web.display url ∧ metadataClient id (.ok (sent j es₁)) = .ok client) ∧
    s.cache.length ≤ MAX_CACHED_METADATA := by
  have h := good_of_run hrun
  refine ⟨?_, h.bound⟩
  have hstage := h.calls i
  rw [hdone] at hstage
  obtain ⟨now, at_, hasked, hserved, hlt⟩ := hstage
  obtain ⟨es₁, j, victims, es₂, url, addrs, ip, heq, hfound, hip, hconnected, hlength, hvalid⟩ :=
    hserved
  refine ⟨now, at_, hasked, hlt, es₁, j, victims, es₂, url, addrs, ip, heq, hfound.resolved, hconnected,
    hip, hfound.isPublic, hlength, hfound.url, (of_validateMetadata hvalid).1, ?_⟩
  rw [metadataClient, hfound.url, ok_bind]
  exact hvalid

/-- **Where requests go.** In any run, whatever the lookups answer and whoever asks, a request is
sent to a public address alone, one of those its URL's host was found at, for an `https` URL. -/
theorem connects_public (hrun : run step (start : Metadata ι) es = some s) {ip : IpAddr}
    (hconnected : .connected i ip ∈ es) : ∃ id url addrs, fetchableMetadataUrl id = .ok url ∧
      Web.scheme url = "https" ∧ .resolved i addrs ∈ es ∧ ip ∈ addrs ∧ ∀ a ∈ addrs, a.Public := by
  obtain ⟨es₁, es₂, rfl⟩ := List.append_of_mem hconnected
  obtain ⟨u, hu, hrest⟩ := run_append.mp hrun
  obtain ⟨t, ht, -⟩ := run_cons.mp hrest
  have hstage := (good_of_run hu).calls i
  cases goes_of_step ht with
  | @connected _ id url addrs _ hi hip =>
    rw [hi] at hstage
    obtain ⟨-, hfound, -⟩ := hstage
    have hscheme : Web.scheme url = "https" := by
      have hurl := hfound.url
      unfold fetchableMetadataUrl at hurl
      obtain ⟨_, -, hurl⟩ := bind_eq_ok.mp hurl
      obtain ⟨_, hensure, hurl⟩ := bind_eq_ok.mp hurl
      obtain rfl := pure_eq_ok.mp hurl
      by_contra hne
      exact ensure_eq_ok.mp hensure (.inl hne)
    exact ⟨id, url, addrs, hfound.url, hscheme, List.mem_append_left _ hfound.resolved, hip,
      hfound.isPublic⟩
  | refused he _ => exact absurd rfl (he i ip)

omit [Origin] [UrlParts] in
theorem calls_goes (s : Metadata ι) (i : ι) (stage : MetadataStage) :
    (s.goes i stage).calls i = some stage :=
  Function.update_self i _ s.calls

theorem step_client {now : Nat} (hnow : s.clock ≤ now) (hi : s.calls i = none) :
    step s (.client i id now) = some (goes { s with clock := now } i (s.begins id now)) := by
  rw [step, if_neg (Nat.not_lt.mpr hnow)]
  simp only [hi]

theorem step_ends {ip : IpAddr} {body : List UInt8} {now : Nat} {victims : List String}
    {cache : SortedMap String (Client × Nat)} (hnow : s.clock ≤ now)
    (hi : s.calls i = some (.reads id url addrs ip body))
    (hvalid : validateMetadata url body = .ok client)
    (hcache : s.cache.enter (fun e => now - e.2 < METADATA_TTL) Prod.snd MAX_CACHED_METADATA victims id
      (client, now) = some cache) : step s (.ends i now victims) =
        some (goes { s with cache, clock := now } i (.done id (.ok client))) := by
  rw [step, if_neg (Nat.not_lt.mpr hnow)]
  simp only [hi, hvalid, hcache, Option.map_some]

end

end

/-! ## A document that is asked for twice -/

section Sample

/-- The URL of a document. -/
def documentUri : String := "https://client.example/client.json"

/-- URLs as their texts. -/
@[reducible] def documentWeb : Web where
  Url := String
  parse := .ok
  scheme _ := "https"
  host _ := none
  display := id
  quoted := id
  serdeError _ := ""
  utf8Error _ := ""

attribute [local instance] documentWeb

@[reducible] def documentOrigin : Origin where
  sha256 := checksum
  hostStr _ := some "client.example"
  path _ := "/client.json"
  query _ := none
  fragment _ := none
  origin _ := "https://client.example"
  extendPairs u _ := u

@[reducible] def documentParts : UrlParts where
  hasHost _ := true
  username _ := ""
  password _ := none

attribute [local instance] documentOrigin documentParts

def sampleDocument : Json :=
  .obj [("client_id", .text documentUri), ("client_name", .text "docs"),
    ("redirect_uris", .arr [.text documentUri])]

theorem validateMetadata_sample : validateMetadata documentUri (utf8 sampleDocument.compact) =
    .ok ⟨documentUri, "docs", [documentUri]⟩ := by
  have hdoc : (utf8Decode (utf8 sampleDocument.compact)).bind Json.parse = some sampleDocument := by
    rw [utf8Decode_utf8, Option.bind_some, Json.parse_compact]
  have hid : (sampleDocument.get "client_id").bind Json.asStr = some documentUri := by decide
  have hname : ((sampleDocument.get "client_name").bind Json.asStr).filter (fun n => !isBlank n) =
    some "docs" := by decide
  unfold validateMetadata
  rw [hdoc, orError_some, ok_bind, hid, hname]
  rfl

/-- The second call is answered from the cache. -/
def sampleFetches : List (MetadataEvent Bool) :=
  [.client false documentUri 0, .resolved false [.v4 0x08080808], .connected false (.v4 0x08080808),
    .chunk false (utf8 sampleDocument.compact), .ends false 1 [], .client true documentUri 5]

theorem run_sampleFetches : ∃ s : Metadata Bool, run step start sampleFetches = some s ∧
    s.calls true = some (.done documentUri (.ok ⟨documentUri, "docs", [documentUri]⟩)) := by
  have hshort : (utf8 sampleDocument.compact).length ≤ MAX_METADATA_BYTES := by decide +kernel
  have hconnected : ∃ u : Metadata Bool, run step start (sampleFetches.take 3) = some u ∧
      u.calls false = some (.reads documentUri documentUri [.v4 0x08080808] (.v4 0x08080808) []) ∧
      u.cache = ∅ ∧ u.clock = 0 ∧ u.calls true = none :=
    ⟨_, rfl, rfl, rfl, rfl, rfl⟩
  obtain ⟨u, hu, hreads, hcache, hclock, hidle⟩ := hconnected
  have hchunk : ∃ v, step u (.chunk false (utf8 sampleDocument.compact)) = some v ∧
      v.calls false = some (.reads documentUri documentUri [.v4 0x08080808] (.v4 0x08080808)
        (utf8 sampleDocument.compact)) ∧ v.cache = ∅ ∧ v.clock = 0 ∧ v.calls true = none := by
    rw [step]
    simp only [hreads, List.nil_append, if_neg (Nat.not_lt.mpr hshort)]
    exact ⟨_, rfl, calls_goes .., hcache, hclock, hidle⟩
  obtain ⟨v, hv, hsent, hcache', hclock', hidle'⟩ := hchunk
  obtain ⟨cache, hentered⟩ : ∃ cache, v.cache.enter (fun e => 1 - e.2 < METADATA_TTL) Prod.snd
      MAX_CACHED_METADATA [] documentUri (⟨documentUri, "docs", [documentUri]⟩, 1) = some cache := by
    rw [hcache']
    exact ⟨_, rfl⟩
  have hends := step_ends (hclock'.le.trans (Nat.zero_le 1)) hsent validateMetadata_sample hentered
  have hget := SortedMap.get?_enter_self hentered
  have hlast : ∃ w, step (goes { v with cache, clock := 1 } false
      (.done documentUri (.ok ⟨documentUri, "docs", [documentUri]⟩))) (.client true documentUri 5) =
        some w ∧
          w.calls true = some (.done documentUri (.ok ⟨documentUri, "docs", [documentUri]⟩)) := by
    have hlive : 5 - 1 < METADATA_TTL := by decide
    have hnow : 1 ≤ 5 := by decide
    refine ⟨_, step_client hnow hidle', ?_⟩
    show some (begins _ documentUri 5) = _
    rw [begins]
    simp only [goes, hget, Option.filter_some, if_pos (decide_eq_true hlive)]
  obtain ⟨w, hw, hdone⟩ := hlast
  have hsplit : sampleFetches = sampleFetches.take 3 ++ [.chunk false (utf8 sampleDocument.compact),
    .ends false 1 [], .client true documentUri 5] := rfl
  have hrest := run_cons.mpr ⟨_, hv, run_cons.mpr ⟨_, hends, run_cons.mpr ⟨w, hw, run_nil.mpr rfl⟩⟩⟩
  rw [hsplit]
  exact ⟨w, run_append.mpr ⟨u, hu, hrest⟩, hdone⟩

theorem client_served_sample : ∃ now at_, .client true documentUri now ∈ sampleFetches ∧
    now < at_ + METADATA_TTL ∧ at_ ≤ now := by
  obtain ⟨s, hrun, hdone⟩ := run_sampleFetches
  obtain ⟨⟨now, at_, hasked, hlt, es₁, j, victims, es₂, url, addrs, ip, heq, -⟩, -⟩ :=
    client_served hrun hdone
  have hends : .ends j at_ victims ∈ sampleFetches := heq ▸ List.mem_append_right _ List.mem_cons_self
  have hnow : now = 5 := by simpa [sampleFetches] using hasked
  have hat : at_ = 1 := by
    have hends' : j = false ∧ at_ = 1 ∧ victims = [] := by simpa [sampleFetches] using hends
    exact hends'.2.1
  exact ⟨now, at_, hasked, hlt, by omega⟩

theorem connects_public_sample : (IpAddr.v4 0x08080808).Public := by
  obtain ⟨s, hrun, -⟩ := run_sampleFetches
  have hconnected : .connected false (.v4 0x08080808) ∈ sampleFetches := by simp [sampleFetches]
  obtain ⟨id, url, addrs, -, -, -, hip, hpublic⟩ := connects_public hrun hconnected
  exact hpublic _ hip

end Sample

end Metadata

end OAuth

end Wires
