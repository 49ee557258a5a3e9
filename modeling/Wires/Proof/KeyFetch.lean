import Wires.Framework.Rate
import Wires.Impl.KeyFetch
import Wires.Proof.Trust
import Mathlib.Algebra.Order.Group.Int

/-!
# How often keys are fetched

`KeyFetcher.Steps` says once what a step of the fetcher can do. From it come
two invariants of `CachedFetcher`: every key set kept anywhere was fetched for
its issuer, and outlives its fetch by no more than the longest lifetime
(`Kept`); and the fetches for one issuer are spaced (`Paced`), as long as no
call misses the cache while another of that issuer's is between missing it and
recording how its fetch went.
-/

namespace Wires

section

variable [Web] [Jose]

/-- The issuer a verification is about to fetch for, or fetching for. -/
def VerifyStage.missing : VerifyStage → Option Issuer
  | .lacks issuer _ | .mayFetch issuer | .discovers issuer | .awaitsDoc issuer _
  | .awaitsKeys issuer _ | .ends issuer _ => some issuer
  | .keys _ _ | .done _ => none

namespace KeyFetcher

variable {ι : Type} [DecidableEq ι] {f g : KeyFetcher ι} {e : KeyEvent ι}

/-- What a step of the fetcher can do, with the fetch it begins and what `keys` returns by it. -/
inductive Steps (f : KeyFetcher ι) :
    KeyEvent ι → KeyFetcher ι → Option (Issuer × Int64) → Option KeysAnswer → Prop
  | verify {i : ι} {c : VerifyCall} (hi : f.calls i = none) (hc : c.stage.missing = none) :
    Steps f (.verify i c.trust c.claim c.now) (f.goes i c) none none
  | hit {i : ι} {c : VerifyCall} {issuer : Issuer} {kid : Option String} {k : Cached}
    (hi : f.calls i = some c) (hc : c.stage = .keys issuer kid) (hk : f.keys issuer = some k)
    (hfresh : c.now < k.expiresAt) (hkid : kid.all k.jwks.hasKid = true) :
    Steps f (.cached i) (f.goes i (c.answered issuer (.ok k.jwks))) none
      (some ⟨issuer, c.now, .ok k.jwks⟩)
  | lacks {i : ι} {c : VerifyCall} {issuer : Issuer} {kid : Option String} {k : Cached}
    (hi : f.calls i = some c) (hc : c.stage = .keys issuer kid) (hk : f.keys issuer = some k)
    (hfresh : c.now < k.expiresAt) (hkid : kid.all k.jwks.hasKid = false) :
    Steps f (.cached i) (f.goes i (c.goes (.lacks issuer k.jwks))) none none
  | misses {i : ι} {c : VerifyCall} {issuer : Issuer} {kid : Option String}
    (hi : f.calls i = some c) (hc : c.stage = .keys issuer kid)
    (hstale : ∀ k, f.keys issuer = some k → k.expiresAt ≤ c.now) :
    Steps f (.cached i) (f.goes i (c.goes (.mayFetch issuer))) none none
  | limited {i : ι} {c : VerifyCall} {issuer : Issuer} {jwks : Jwks}
    (hi : f.calls i = some c) (hc : c.stage = .lacks issuer jwks) :
    Steps f (.force i) (f.goes i (c.answered issuer (.ok jwks))) none
      (some ⟨issuer, c.now, .ok jwks⟩)
  | forced {i : ι} {c : VerifyCall} {issuer : Issuer} {jwks : Jwks}
    (hi : f.calls i = some c) (hc : c.stage = .lacks issuer jwks)
    (hlast : ∀ t, f.forced issuer = some t → ¬c.now - t < MIN_TTL) :
    Steps f (.force i) { f.goes i (c.goes (.mayFetch issuer)) with
      forced := Function.update f.forced issuer (some c.now) } none none
  | refused {i : ι} {c : VerifyCall} {issuer : Issuer} {why : Anyhow}
    (hi : f.calls i = some c) (hc : c.stage = .mayFetch issuer) :
    Steps f (.tries i) (f.goes i (c.answered issuer (.error why))) none
      (some ⟨issuer, c.now, .error why⟩)
  | fetches {i : ι} {c : VerifyCall} {issuer : Issuer}
    (hi : f.calls i = some c) (hc : c.stage = .mayFetch issuer)
    (hlast : ∀ p, f.failed issuer = some p → ¬c.now - p.1 < MIN_TTL) :
    Steps f (.tries i) (f.goes i (c.goes (.discovers issuer))) (some (issuer, c.now)) none
  | knows {i : ι} {c : VerifyCall} {issuer : Issuer} {doc : Discovery}
    (hi : f.calls i = some c) (hc : c.stage = .discovers issuer)
    (hdoc : f.discovery issuer = some doc) :
    Steps f (.discover i) (f.goes i (c.goes (.awaitsKeys issuer doc))) none none
  | asks {i : ι} {c : VerifyCall} {issuer : Issuer} {url : Web.Url}
    (hi : f.calls i = some c) (hc : c.stage = .discovers issuer) :
    Steps f (.discover i) (f.goes i (c.goes (.awaitsDoc issuer url))) none none
  | badUrl {i : ι} {c : VerifyCall} {issuer : Issuer} {why : Anyhow}
    (hi : f.calls i = some c) (hc : c.stage = .discovers issuer) :
    Steps f (.discover i) (f.goes i (c.goes (.ends issuer (.error why)))) none none
  | document {i : ι} {c : VerifyCall} {issuer : Issuer} {url : Web.Url} {response : Response}
    {doc : Discovery} (hi : f.calls i = some c) (hc : c.stage = .awaitsDoc issuer url)
    (hdoc : discovered issuer url response = .ok doc) :
    Steps f (.document i response) { f.goes i (c.goes (.awaitsKeys issuer doc)) with
      discovery := Function.update f.discovery issuer (some doc) } none none
  | badDocument {i : ι} {c : VerifyCall} {issuer : Issuer} {url : Web.Url} {response : Response}
    {why : Anyhow} (hi : f.calls i = some c) (hc : c.stage = .awaitsDoc issuer url) :
    Steps f (.document i response) (f.goes i (c.goes (.ends issuer (.error why)))) none none
  | keySet {i : ι} {c : VerifyCall} {issuer : Issuer} {doc : Discovery} {response : Response}
    {jwks : Jwks} {ttl : Int64} (hi : f.calls i = some c) (hc : c.stage = .awaitsKeys issuer doc)
    (hkeys : fetchedKeys doc response = .ok (jwks, ttl)) :
    Steps f (.keySet i response) { f.goes i (c.goes (.ends issuer (.ok jwks))) with
      keys := Function.update f.keys issuer (some ⟨c.now + ttl, jwks⟩) } none none
  | badKeySet {i : ι} {c : VerifyCall} {issuer : Issuer} {doc : Discovery} {response : Response}
    {why : Anyhow} (hi : f.calls i = some c) (hc : c.stage = .awaitsKeys issuer doc) :
    Steps f (.keySet i response) (f.goes i (c.goes (.ends issuer (.error why)))) none none
  | settles {i : ι} {c : VerifyCall} {issuer : Issuer} {jwks : Jwks}
    (hi : f.calls i = some c) (hc : c.stage = .ends issuer (.ok jwks)) :
    Steps f (.settle i) { f.goes i (c.answered issuer (.ok jwks)) with
      failed := Function.update f.failed issuer none } none (some ⟨issuer, c.now, .ok jwks⟩)
  | fails {i : ι} {c : VerifyCall} {issuer : Issuer} {why : Anyhow}
    (hi : f.calls i = some c) (hc : c.stage = .ends issuer (.error why)) :
    Steps f (.settle i) { f.goes i (c.answered issuer (.error why)) with
      failed := Function.update f.failed issuer (some (c.now, oneLine why)) } none
      (some ⟨issuer, c.now, .error why⟩)

theorem steps_of_step (h : f.step e = some g) : Steps f e g (f.begins e) (f.returns e) := by
  cases e with
  | verify i trust claim now =>
    simp only [KeyFetcher.step] at h
    split at h
    · cases h
    · rename_i hi
      obtain rfl := Option.some.inj h
      refine Steps.verify (c := ⟨trust, claim, now, _⟩) hi ?_
      split <;> rfl
  | cached i =>
    simp only [KeyFetcher.step] at h
    split at h
    · rename_i trust claim now issuer kid hi
      split at h
      · rename_i k hk
        obtain ⟨hkeys, hfresh⟩ := Option.filter_eq_some_iff.mp hk
        split_ifs at h with hkid
        · obtain rfl := Option.some.inj h
          simp only [begins, returns, hi, hk, hkid, if_true]
          exact .hit hi rfl hkeys (of_decide_eq_true hfresh) hkid
        · obtain rfl := Option.some.inj h
          simp only [begins, returns, hi, hk, hkid]
          exact .lacks hi rfl hkeys (of_decide_eq_true hfresh) (Bool.eq_false_iff.mpr hkid)
      · rename_i hk
        obtain rfl := Option.some.inj h
        simp only [begins, returns, hi, hk]
        refine .misses hi rfl fun k hkeys => ?_
        have := Option.filter_eq_none_iff.mp hk k hkeys
        simpa using this
    · cases h
  | force i =>
    simp only [KeyFetcher.step] at h
    split at h
    · rename_i trust claim now issuer jwks hi
      split_ifs at h with hlast
      · obtain rfl := Option.some.inj h
        simp only [begins, returns, hi, hlast, if_true]
        exact .limited hi rfl
      · obtain rfl := Option.some.inj h
        simp only [begins, returns, hi, hlast]
        refine .forced hi rfl fun t ht hnear => ?_
        rw [ht] at hlast
        exact hlast (decide_eq_true hnear)
    · cases h
  | tries i =>
    simp only [KeyFetcher.step] at h
    split at h
    · rename_i trust claim now issuer hi
      split at h
      · rename_i at_ why hp
        obtain rfl := Option.some.inj h
        obtain ⟨hfailed, hnear⟩ := Option.filter_eq_some_iff.mp hp
        have hsome : (f.failed issuer).any (fun p => now - p.1 < MIN_TTL) = true := by
          rw [hfailed]
          exact hnear
        simp only [begins, returns, hi, hp, hsome, if_true, Option.map_some]
        exact .refused hi rfl
      · rename_i hp
        obtain rfl := Option.some.inj h
        have hlast : ∀ p, f.failed issuer = some p → ¬now - p.1 < MIN_TTL := fun p hfailed => by
          have := Option.filter_eq_none_iff.mp hp p hfailed
          simpa using this
        have hnone : ¬(f.failed issuer).any (fun p => now - p.1 < MIN_TTL) = true := by
          rw [Option.any_eq_true]
          rintro ⟨p, hfailed, hnear⟩
          exact hlast p hfailed (of_decide_eq_true hnear)
        simp only [begins, returns, hi, hp, hnone, Option.map_none]
        exact .fetches hi rfl hlast
    · cases h
  | discover i =>
    simp only [KeyFetcher.step] at h
    split at h
    · rename_i hi
      split at h
      · rename_i hdoc
        obtain rfl := Option.some.inj h
        exact .knows hi rfl hdoc
      · split at h
        · obtain rfl := Option.some.inj h
          exact .asks hi rfl
        · obtain rfl := Option.some.inj h
          exact .badUrl hi rfl
    · cases h
  | document i response =>
    simp only [KeyFetcher.step] at h
    split at h
    · rename_i hi
      split at h
      · rename_i hdoc
        obtain rfl := Option.some.inj h
        exact .document hi rfl hdoc
      · obtain rfl := Option.some.inj h
        exact .badDocument hi rfl
    · cases h
  | keySet i response =>
    simp only [KeyFetcher.step] at h
    split at h
    · rename_i hi
      split at h
      · rename_i hkeys
        obtain rfl := Option.some.inj h
        exact .keySet hi rfl hkeys
      · obtain rfl := Option.some.inj h
        exact .badKeySet hi rfl
    · cases h
  | settle i =>
    simp only [KeyFetcher.step] at h
    split at h
    · rename_i trust claim now issuer result hi
      obtain rfl := Option.some.inj h
      cases result with
      | ok jwks =>
        simp only [begins, returns, hi]
        exact .settles hi rfl
      | error why =>
        simp only [begins, returns, hi]
        exact .fails hi rfl
    · cases h

end KeyFetcher

/-! ## Times -/

omit [Web] [Jose] in
theorem toInt_add_le (a b : Int64) (h : 0 ≤ b.toInt) : (a + b).toInt ≤ a.toInt + b.toInt := by
  have ha := a.toInt_lt
  have hl := a.le_toInt
  have hb := b.toInt_lt
  rw [Int64.toInt_add, Int.bmod_def]
  split <;> omega

omit [Web] [Jose] in
theorem toInt_add_of_lt {a b : Int64} (h : 0 ≤ b.toInt) (hlt : a.toInt + b.toInt < 2 ^ 63) :
    (a + b).toInt = a.toInt + b.toInt := by
  have hl := a.le_toInt
  rw [Int64.toInt_add, Int.bmod_def]
  split <;> omega

omit [Web] [Jose] in
/-- A time that is not near is `MIN_TTL` before. -/
theorem toInt_of_not_near {now t : Int64} (hle : t.toInt ≤ now.toInt) (h : ¬now - t < MIN_TTL) :
    t.toInt + 60 ≤ now.toInt := by
  have ha := now.toInt_lt
  have hl := t.le_toInt
  have hgap : (60 : Int) ≤ (now - t).toInt := Int64.le_iff_toInt_le.mp (Int64.not_lt.mp h)
  rw [Int64.toInt_sub, Int.bmod_def] at hgap
  split at hgap <;> omega

omit [Jose] in
/-- A key set is kept for between the shortest and the longest lifetime. -/
theorem ttl_of_fetchedKeys {doc : Discovery} {response : Response} {jwks : Jwks} {ttl : Int64}
    (h : fetchedKeys doc response = .ok (jwks, ttl)) : 60 ≤ ttl.toInt ∧ ttl.toInt ≤ 86400 := by
  simp only [fetchedKeys, bind_eq_ok, orError_eq_ok, pure_eq_ok, Prod.mk.injEq, Prod.exists] at h
  obtain ⟨body, maxAge, -, text, -, jwks', -, -, rfl⟩ := h
  generalize maxAge.getD DEFAULT_TTL = x
  have hmin : (min x MAX_TTL).toInt ≤ 86400 := by
    show (if x ≤ MAX_TTL then x else MAX_TTL).toInt ≤ 86400
    split_ifs with hx
    · exact Int64.le_iff_toInt_le.mp hx
    · decide
  show 60 ≤ (if MIN_TTL ≤ min x MAX_TTL then min x MAX_TTL else MIN_TTL).toInt ∧
    (if MIN_TTL ≤ min x MAX_TTL then min x MAX_TTL else MIN_TTL).toInt ≤ 86400
  split_ifs with hx
  · exact ⟨Int64.le_iff_toInt_le.mp hx, hmin⟩
  · decide

namespace CachedFetcher

variable {ι : Type} [DecidableEq ι] {s t : CachedFetcher ι} {g : KeyFetcher ι} {e : KeyEvent ι}
  {begun : Option (Issuer × Int64)} {answer : Option KeysAnswer}

/-- The state after a step of the fetcher. -/
def after (s : CachedFetcher ι) (g : KeyFetcher ι) (begun : Option (Issuer × Int64))
    (answer : Option KeysAnswer) : CachedFetcher ι :=
  { s with fetcher := g, starts := begun.toList ++ s.starts, answers := answer.toList ++ s.answers }

theorem steps_of_goes (h : s.goes e = some t) :
    ∃ g begun answer, s.fetcher.Steps e g begun answer ∧ t = s.after g begun answer := by
  obtain ⟨g, hg, rfl⟩ := Option.map_eq_some_iff.mp h
  exact ⟨g, _, _, KeyFetcher.steps_of_step hg, rfl⟩

/-! ## What is kept was fetched -/

omit [Jose] in
/-- A key set was fetched for an issuer, and a time is at most the longest lifetime after that. -/
def Have (sets : List FetchedSet) (issuer : Issuer) (jwks : Jwks) (time : Int) : Prop :=
  ∃ set ∈ sets, set.issuer = issuer ∧ set.doc.issuer = issuer ∧
    (∃ ttl, fetchedKeys set.doc set.response = .ok (jwks, ttl)) ∧
    time ≤ set.at_.toInt + MAX_TTL.toInt

omit [Jose] in
theorem Have.mono {sets more : List FetchedSet} {issuer : Issuer} {jwks : Jwks} {x y : Int}
    (h : Have sets issuer jwks x) (hsub : sets ⊆ more) (hle : y ≤ x) : Have more issuer jwks y := by
  obtain ⟨set, hset, hi, hdoc, hkeys, hx⟩ := h
  exact ⟨set, hsub hset, hi, hdoc, hkeys, hle.trans hx⟩

omit [Jose] in
/-- What was just fetched, until it expires. -/
theorem have_fetched {sets : List FetchedSet} {set : FetchedSet} {jwks : Jwks} {ttl : Int64}
    (hset : set ∈ sets) (hdoc : set.doc.issuer = set.issuer)
    (hkeys : fetchedKeys set.doc set.response = .ok (jwks, ttl)) :
    Have sets set.issuer jwks (set.at_ + ttl).toInt := by
  obtain ⟨hmin, hmax⟩ := ttl_of_fetchedKeys hkeys
  have hle := toInt_add_le set.at_ ttl (by omega)
  refine ⟨set, hset, rfl, hdoc, ⟨ttl, hkeys⟩, ?_⟩
  show _ ≤ set.at_.toInt + 86400
  omega

/-- What is so of a verification at its stage. -/
def Holds (s : CachedFetcher ι) (c : VerifyCall) : Prop :=
  match c.stage with
  | .lacks issuer jwks => Have s.fetched issuer jwks c.now.toInt
  | .awaitsKeys issuer doc => doc.issuer = issuer
  | .ends issuer result => ∀ jwks, result = .ok jwks → Have s.fetched issuer jwks c.now.toInt
  | _ => True

/-- What is so of a verification whose key set is there. -/
def Received (s : CachedFetcher ι) (c : VerifyCall) (response : Response) : Prop :=
  match c.stage with
  | .awaitsKeys issuer doc => ∀ jwks ttl, fetchedKeys doc response = .ok (jwks, ttl) →
      ⟨issuer, c.now, doc, response⟩ ∈ s.fetched
  | .ends _ _ | .done _ => True
  | _ => False

/-- Every key set was fetched for its issuer, and expires within the longest lifetime of that. -/
structure Kept (s : CachedFetcher ι) : Prop where
  keys : ∀ issuer k, s.fetcher.keys issuer = some k →
    Have s.fetched issuer k.jwks k.expiresAt.toInt
  files : ∀ p file, s.files p = some file →
    Have s.fetched file.issuer file.cached.jwks file.cached.expiresAt.toInt
  discovery : ∀ issuer doc, s.fetcher.discovery issuer = some doc → doc.issuer = issuer
  calls : ∀ i c, s.fetcher.calls i = some c → s.Holds c
  received : ∀ i r, s.received i = some r → ∃ c, s.fetcher.calls i = some c ∧ s.Received c r
  answers : ∀ a ∈ s.answers, ∀ jwks, a.result = .ok jwks →
    Have s.fetched a.issuer jwks a.now.toInt

omit [Jose] in
/-- A verification goes on. -/
theorem Kept.moves (h : Kept s) {i : ι} {c : VerifyCall}
    (hcalls : g.calls = Function.update s.fetcher.calls i (some c))
    (hkeys : ∀ issuer k, g.keys issuer = some k → s.fetcher.keys issuer = some k ∨
      Have s.fetched issuer k.jwks k.expiresAt.toInt)
    (hdoc : ∀ issuer doc, g.discovery issuer = some doc → s.fetcher.discovery issuer = some doc ∨
      doc.issuer = issuer)
    (hc : s.Holds c) (hreceived : ∀ r, s.received i = some r → s.Received c r)
    (hanswer : ∀ a ∈ answer, ∀ jwks, a.result = .ok jwks →
      Have s.fetched a.issuer jwks a.now.toInt) : Kept (s.after g begun answer) where
  keys issuer k hk := (hkeys issuer k hk).elim (h.keys issuer k) id
  files := h.files
  discovery issuer doc hd := (hdoc issuer doc hd).elim (h.discovery issuer doc) id
  calls j d hj := by
    have hj : Function.update s.fetcher.calls i (some c) j = some d := hcalls ▸ hj
    rw [Function.update_apply] at hj
    split_ifs at hj
    · exact Option.some.inj hj ▸ hc
    · exact h.calls j d hj
  received j r hj := by
    show ∃ d, g.calls j = some d ∧ s.Received d r
    rw [hcalls, Function.update_apply]
    split_ifs with hji
    · exact ⟨c, rfl, hreceived r (hji ▸ hj)⟩
    · exact h.received j r hj
  answers a ha jwks hjwks := by
    rcases List.mem_append.mp ha with hnew | hold
    · exact hanswer a (Option.mem_toList.mp hnew) jwks hjwks
    · exact h.answers a hold jwks hjwks

omit [Jose] [DecidableEq ι] in
/-- A call that received its key set is at a stage that knows it. -/
theorem Kept.received_of (h : Kept s) {i : ι} {c : VerifyCall} (hi : s.fetcher.calls i = some c)
    {r : Response} (hr : s.received i = some r) : s.Received c r := by
  obtain ⟨d, hd, hreceived⟩ := h.received i r hr
  rw [hi] at hd
  exact Option.some.inj hd ▸ hreceived

omit [Jose] [DecidableEq ι] in
/-- Before the key set is awaited, none was received. -/
theorem Kept.not_received (h : Kept s) {i : ι} {c : VerifyCall} (hi : s.fetcher.calls i = some c)
    (hc : ∀ r, ¬s.Received c r) {P : Response → Prop} : ∀ r, s.received i = some r → P r :=
  fun r hr => absurd (h.received_of hi hr) (hc r)

theorem Kept.after (h : Kept s) (hstep : s.fetcher.Steps e g begun answer)
    (hread : ∀ i r, e = .keySet i r → s.received i = some r) : Kept (s.after g begun answer) := by
  have hnone : ∀ a ∈ (none : Option KeysAnswer), ∀ jwks, a.result = .ok jwks →
      Have s.fetched a.issuer jwks a.now.toInt := nofun
  have hsame : ∀ issuer k, s.fetcher.keys issuer = some k → s.fetcher.keys issuer = some k ∨
      Have s.fetched issuer k.jwks k.expiresAt.toInt := fun _ _ => .inl
  have hdocs : ∀ issuer doc, s.fetcher.discovery issuer = some doc →
      s.fetcher.discovery issuer = some doc ∨ doc.issuer = issuer := fun _ _ => .inl
  cases hstep with
  | @verify i c hi hc =>
    refine h.moves rfl hsame hdocs ?_ (fun r hr => ?_) hnone
    · unfold Holds
      cases hstage : c.stage <;> simp_all [VerifyStage.missing]
    · obtain ⟨d, hd, -⟩ := h.received i r hr
      rw [hi] at hd
      cases hd
  | @hit i c issuer kid k hi hc hk hfresh _ =>
    have hhave := (h.keys issuer k hk).mono (List.Subset.refl _)
      (Int64.lt_iff_toInt_lt.mp hfresh).le
    refine h.moves rfl hsame hdocs trivial (h.not_received hi (by simp [Received, hc])) ?_
    rintro a ⟨⟩ jwks ⟨⟩
    exact hhave
  | @lacks i c issuer kid k hi hc hk hfresh _ =>
    have hhave := (h.keys issuer k hk).mono (List.Subset.refl _)
      (Int64.lt_iff_toInt_lt.mp hfresh).le
    exact h.moves rfl hsame hdocs hhave (h.not_received hi (by simp [Received, hc])) hnone
  | @misses i c issuer kid hi hc _ =>
    exact h.moves rfl hsame hdocs trivial (h.not_received hi (by simp [Received, hc])) hnone
  | @limited i c issuer jwks hi hc =>
    have hhave : s.Holds c := h.calls i c hi
    rw [Holds, hc] at hhave
    refine h.moves rfl hsame hdocs trivial (h.not_received hi (by simp [Received, hc])) ?_
    rintro a ⟨⟩ jwks' ⟨⟩
    exact hhave
  | @forced i c issuer jwks hi hc _ =>
    exact h.moves rfl hsame hdocs trivial (h.not_received hi (by simp [Received, hc])) hnone
  | @refused i c issuer why hi hc =>
    refine h.moves rfl hsame hdocs trivial (h.not_received hi (by simp [Received, hc])) ?_
    rintro a ⟨⟩ jwks ⟨⟩
  | @fetches i c issuer hi hc _ =>
    exact h.moves rfl hsame hdocs trivial (h.not_received hi (by simp [Received, hc])) hnone
  | @knows i c issuer doc hi hc hdoc =>
    have hissuer := h.discovery issuer doc hdoc
    exact h.moves rfl hsame hdocs hissuer (h.not_received hi (by simp [Received, hc])) hnone
  | @asks i c issuer url hi hc =>
    exact h.moves rfl hsame hdocs trivial (h.not_received hi (by simp [Received, hc])) hnone
  | @badUrl i c issuer why hi hc =>
    exact h.moves rfl hsame hdocs nofun (h.not_received hi (by simp [Received, hc])) hnone
  | @document i c issuer url response doc hi hc hd =>
    have hissuer := issuer_of_discovered hd
    refine h.moves rfl hsame (fun issuer' doc' hd' => ?_) hissuer
      (h.not_received hi (by simp [Received, hc])) hnone
    simp only [Function.update_apply] at hd'
    split_ifs at hd' with hi'
    · obtain rfl := Option.some.inj hd'
      exact .inr (hissuer.trans hi'.symm)
    · exact .inl hd'
  | @badDocument i c issuer url response why hi hc =>
    exact h.moves rfl hsame hdocs nofun (h.not_received hi (by simp [Received, hc])) hnone
  | @keySet i c issuer doc response jwks ttl hi hc hkeys =>
    have hdoc : s.Holds c := h.calls i c hi
    have hset := h.received_of hi (hread i response rfl)
    rw [Holds, hc] at hdoc
    rw [Received, hc] at hset
    have hhave := have_fetched (hset jwks ttl hkeys) hdoc hkeys
    refine h.moves rfl (fun issuer' k hk => ?_) hdocs (fun jwks' hj => ?_) (fun _ _ => trivial) hnone
    · simp only [Function.update_apply] at hk
      split_ifs at hk with hi'
      · obtain rfl := Option.some.inj hk
        exact .inr (hi' ▸ hhave)
      · exact .inl hk
    · obtain rfl := Except.ok.inj hj
      refine ⟨_, hset jwks ttl hkeys, rfl, hdoc, ⟨ttl, hkeys⟩, ?_⟩
      show c.now.toInt ≤ c.now.toInt + 86400
      omega
  | @badKeySet i c issuer doc response why hi hc =>
    exact h.moves rfl hsame hdocs nofun (fun _ _ => trivial) hnone
  | @settles i c issuer jwks hi hc =>
    have hhave : s.Holds c := h.calls i c hi
    rw [Holds, hc] at hhave
    refine h.moves rfl hsame hdocs trivial (fun _ _ => trivial) ?_
    rintro a ⟨⟩ jwks' ⟨⟩
    exact hhave jwks rfl
  | @fails i c issuer why hi hc =>
    refine h.moves rfl hsame hdocs trivial (fun _ _ => trivial) ?_
    rintro a ⟨⟩ jwks ⟨⟩

variable {path : Issuer → String}

omit [Jose] [DecidableEq ι] in
/-- Before it looks into the cache, a call changes nothing, or takes a fresh key set from disk for
one that is stale. -/
theorem looks_cases (s : CachedFetcher ι) (i : ι) : s.looks path i = s ∨
    ∃ c issuer kid file, s.fetcher.calls i = some c ∧ c.stage = .keys issuer kid ∧
      s.files (path issuer) = some file ∧ file.issuer = issuer ∧
      (∀ k, s.fetcher.keys issuer = some k → k.expiresAt ≤ c.now) ∧
      c.now < file.cached.expiresAt ∧ s.looks path i = { s with
        fetcher := { s.fetcher with
          keys := Function.update s.fetcher.keys issuer (some file.cached) } } := by
  unfold looks
  split
  · rename_i trust claim now issuer kid hi
    unfold KeyFetcher.loaded
    by_cases hfresh : (s.fetcher.keys issuer).any (fun k => k.expiresAt > now) = true
    · exact .inl (by rw [if_pos hfresh])
    · rw [if_neg hfresh]
      split
      · rename_i file hfile
        obtain ⟨hfile, hok⟩ := Option.filter_eq_some_iff.mp hfile
        have hok := of_decide_eq_true hok
        simp only [not_or, ne_eq, not_not] at hok
        refine .inr ⟨_, issuer, kid, file, hi, rfl, hfile, hok.1, fun k hk => ?_,
          Int64.not_le.mp hok.2.1, rfl⟩
        rw [hk] at hfresh
        exact Int64.not_lt.mp fun hlt => hfresh (decide_eq_true hlt)
      · exact .inl rfl
  · exact .inl rfl

omit [Jose] [DecidableEq ι] in
theorem Kept.looks (h : Kept s) (i : ι) : Kept (s.looks path i) := by
  rcases looks_cases s i with heq | ⟨c, issuer, kid, file, -, -, hfile, hissuer, -, -, heq⟩
  · rw [heq]
    exact h
  · rw [heq]
    refine ⟨fun issuer' k hk => ?_, h.files, h.discovery, h.calls, h.received, h.answers⟩
    simp only [Function.update_apply] at hk
    split_ifs at hk with hi
    · obtain rfl := Option.some.inj hk
      have hhave := h.files _ file hfile
      rwa [hissuer, ← hi] at hhave
    · exact h.keys issuer' k hk

theorem Kept.goes (h : Kept s) (hs : s.goes e = some t)
    (hread : ∀ i r, e = .keySet i r → s.received i = some r) : Kept t := by
  obtain ⟨g, begun, answer, hstep, rfl⟩ := steps_of_goes hs
  exact h.after hstep hread

omit [Jose] [DecidableEq ι] in
/-- Another key set was fetched. -/
theorem Kept.fetch (h : Kept s) (hfiles : ∀ p file, t.files p = some file →
      Have t.fetched file.issuer file.cached.jwks file.cached.expiresAt.toInt)
    (hreceived : ∀ i r, t.received i = some r → ∃ c, t.fetcher.calls i = some c ∧ t.Received c r)
    (hfetcher : t.fetcher = s.fetcher) (hanswers : t.answers = s.answers)
    (hsub : s.fetched ⊆ t.fetched) : Kept t where
  keys issuer k hk := (h.keys issuer k (hfetcher ▸ hk)).mono hsub le_rfl
  files := hfiles
  discovery issuer doc hd := h.discovery issuer doc (hfetcher ▸ hd)
  calls i c hi := by
    have hc : s.Holds c := h.calls i c (hfetcher ▸ hi)
    unfold Holds at hc ⊢
    split at hc
    · exact hc.mono hsub le_rfl
    · exact hc
    · exact fun jwks hj => (hc jwks hj).mono hsub le_rfl
    · trivial
  received := hreceived
  answers a ha jwks hj := (h.answers a (hanswers ▸ ha) jwks hj).mono hsub le_rfl

theorem Kept.step (h : Kept s) {e : CacheEvent ι} (hs : s.step path e = some t) : Kept t := by
  have hmore : ∀ {set : FetchedSet} {c : VerifyCall} {r : Response}, s.Received c r →
      Received { s with fetched := set :: s.fetched } c r := fun {set c r} hr => by
    unfold Received at hr ⊢
    split at hr
    · exact fun jwks ttl hkeys => List.mem_cons_of_mem _ (hr jwks ttl hkeys)
    · trivial
    · trivial
    · exact hr
  cases e with
  | key e =>
    cases e with
    | verify i trust claim now =>
      simp only [CachedFetcher.step] at hs
      split_ifs at hs
      have hclock : Kept { s with clock := now } :=
        ⟨h.keys, h.files, h.discovery, h.calls, h.received, h.answers⟩
      exact hclock.goes hs nofun
    | cached i => exact (h.looks i).goes hs nofun
    | keySet i r => cases hs
    | force i => exact h.goes hs nofun
    | tries i => exact h.goes hs nofun
    | discover i => exact h.goes hs nofun
    | document i r => exact h.goes hs nofun
    | settle i => exact h.goes hs nofun
  | receives i response written =>
    simp only [CachedFetcher.step] at hs
    split at hs
    · rename_i trust claim now issuer doc hnone hi
      have hdoc : s.Holds ⟨trust, claim, now, .awaitsKeys issuer doc⟩ := h.calls i _ hi
      split at hs
      · rename_i why hkeys
        obtain rfl := Option.some.inj hs
        refine ⟨h.keys, h.files, h.discovery, h.calls, fun j r hj => ?_, h.answers⟩
        simp only [Function.update_apply] at hj
        split_ifs at hj with hji
        · obtain rfl := Option.some.inj hj
          refine ⟨⟨trust, claim, now, .awaitsKeys issuer doc⟩, hji ▸ hi, fun jwks ttl hok => ?_⟩
          rw [hkeys] at hok
          cases hok
        · exact h.received j r hj
      · rename_i jwks ttl hkeys
        obtain rfl := Option.some.inj hs
        have hmem : (⟨issuer, now, doc, response⟩ : FetchedSet) ∈
            ⟨issuer, now, doc, response⟩ :: s.fetched := List.mem_cons_self
        refine h.fetch (fun p file hfile => ?_) (fun j r hj => ?_) rfl rfl (List.subset_cons_self _ _)
        · have hold : s.files p = some file → Have (⟨issuer, now, doc, response⟩ :: s.fetched)
              file.issuer file.cached.jwks file.cached.expiresAt.toInt := fun hf =>
            (h.files p file hf).mono (List.subset_cons_self _ _) le_rfl
          simp only at hfile
          split_ifs at hfile
          · rw [Function.update_apply] at hfile
            split_ifs at hfile
            · obtain rfl := Option.some.inj hfile
              exact have_fetched hmem hdoc hkeys
            · exact hold hfile
          · exact hold hfile
        · simp only [Function.update_apply] at hj
          split_ifs at hj with hji
          · obtain rfl := Option.some.inj hj
            exact ⟨⟨trust, claim, now, .awaitsKeys issuer doc⟩, hji ▸ hi, fun _ _ _ => hmem⟩
          · obtain ⟨c, hc, hr⟩ := h.received j r hj
            exact ⟨c, hc, hmore hr⟩
    · cases hs
  | stores i =>
    obtain ⟨r, hr, hs⟩ := Option.bind_eq_some_iff.mp hs
    refine h.goes hs ?_
    rintro j r' ⟨⟩
    exact hr
  | elsewhere set =>
    simp only [CachedFetcher.step] at hs
    split_ifs at hs with hset
    split at hs
    · cases hs
    · rename_i jwks ttl hkeys
      obtain rfl := Option.some.inj hs
      refine h.fetch (fun p file hfile => ?_) (fun j r hj => ?_) rfl rfl (List.subset_cons_self _ _)
      · simp only [Function.update_apply] at hfile
        split_ifs at hfile
        · obtain rfl := Option.some.inj hfile
          exact have_fetched List.mem_cons_self hset.2 hkeys
        · exact (h.files p file hfile).mono (List.subset_cons_self _ _) le_rfl
      · obtain ⟨c, hc, hr⟩ := h.received j r hj
        exact ⟨c, hc, hmore hr⟩
  | lost p =>
    obtain rfl := Option.some.inj hs
    refine ⟨h.keys, fun q file hfile => ?_, h.discovery, h.calls, h.received, h.answers⟩
    simp only [Function.update_apply] at hfile
    split_ifs at hfile
    exact h.files q file hfile

theorem kept_of_run {es : List (CacheEvent ι)} (hrun : run (step path) start es = some s) :
    Kept s := by
  refine run_invariant (fun s e t h hs => Kept.step h hs) ⟨?_, ?_, ?_, ?_, ?_, ?_⟩ hrun
  all_goals simp [start, KeyFetcher.new]

/-! ## Fetches are spaced -/

/-- When fetches of an issuer's keys began, newest first. -/
def startsFor (s : CachedFetcher ι) (issuer : Issuer) : List Int :=
  (s.starts.filter fun p => p.1 = issuer).map fun p => p.2.toInt

/-- The newest fetch gave a key set that is kept for a while, or its failure is remembered. -/
def Rested (s : CachedFetcher ι) (issuer : Issuer) : Prop :=
  ∀ t ∈ (s.startsFor issuer).head?,
    (∃ k, s.fetcher.keys issuer = some k ∧ t + MIN_TTL.toInt ≤ k.expiresAt.toInt) ∨
      ∃ p, s.fetcher.failed issuer = some p ∧ p.1.toInt = t

/-- A fetch at `now` would be spaced, once the last failure is looked at. -/
def Ready (s : CachedFetcher ι) (issuer : Issuer) (now : Int64) : Prop :=
  ∀ t ∈ (s.startsFor issuer).head?, t + MIN_TTL.toInt ≤ now.toInt ∨
    (∃ p, s.fetcher.failed issuer = some p ∧ p.1.toInt = t) ∨
    s.fetcher.forced issuer = some now ∧ ¬Quick MIN_TTL.toInt (s.startsFor issuer)

/-- No fetch of the issuer's began after `now`. -/
def Latest (s : CachedFetcher ι) (issuer : Issuer) (now : Int64) : Prop :=
  ∀ t ∈ (s.startsFor issuer).head?, t ≤ now.toInt

/-- What is so of a call that missed the cache, at its stage. -/
def Flies (s : CachedFetcher ι) (issuer : Issuer) (now : Int64) : VerifyStage → Prop
  | .lacks _ _ => s.Latest issuer now ∧ s.Rested issuer ∧
      ∀ t, s.fetcher.forced issuer = some t → t ≤ now
  | .mayFetch _ => s.Latest issuer now ∧ s.Rested issuer ∧ s.Ready issuer now
  | .discovers _ | .awaitsDoc _ _ | .awaitsKeys _ _ =>
    (s.startsFor issuer).head? = some now.toInt
  | .ends _ result => (s.startsFor issuer).head? = some now.toInt ∧
      ∀ jwks, result = .ok jwks → ∃ k, s.fetcher.keys issuer = some k ∧
        now.toInt + MIN_TTL.toInt ≤ k.expiresAt.toInt
  | _ => True

/-- No call of an issuer's is between missing the cache and recording how its fetch went. -/
def Idle (s : CachedFetcher ι) (issuer : Issuer) : Prop :=
  ∀ i c, s.fetcher.calls i = some c → c.stage.missing ≠ some issuer

/-- The fetches for one issuer are spaced: where the newest two are close, the second was forced,
and at most one call is under way to another. -/
structure Paced (s : CachedFetcher ι) (issuer : Issuer) : Prop where
  spaced : Spaced MIN_TTL.toInt (s.startsFor issuer)
  quick : Quick MIN_TTL.toInt (s.startsFor issuer) →
    ∃ f, s.fetcher.forced issuer = some f ∧ s.Latest issuer f
  once : ∀ i j c d, s.fetcher.calls i = some c → s.fetcher.calls j = some d →
    c.stage.missing = some issuer → d.stage.missing = some issuer → i = j
  rests : s.Idle issuer → s.Rested issuer
  flies : ∀ i c, s.fetcher.calls i = some c → c.stage.missing = some issuer →
    c.now.toInt + MAX_TTL.toInt < 2 ^ 63 ∧ s.Flies issuer c.now c.stage

omit [Jose] [DecidableEq ι] in
/-- A step that leaves an issuer's fetches and misses alone. -/
theorem Paced.other {issuer : Issuer} (h : Paced s issuer)
    (hstarts : t.startsFor issuer = s.startsFor issuer)
    (hkeys : ∀ k, s.fetcher.keys issuer = some k →
      ∃ k', t.fetcher.keys issuer = some k' ∧ k.expiresAt.toInt ≤ k'.expiresAt.toInt)
    (hforced : t.fetcher.forced issuer = s.fetcher.forced issuer)
    (hfailed : t.fetcher.failed issuer = s.fetcher.failed issuer)
    (hcalls : ∀ i c, c.stage.missing = some issuer →
      (t.fetcher.calls i = some c ↔ s.fetcher.calls i = some c)) : Paced t issuer := by
  have hrested : s.Rested issuer → t.Rested issuer := fun hr x hx => by
    rw [hstarts] at hx
    rcases hr x hx with ⟨k, hk, hle⟩ | ⟨p, hp, heq⟩
    · obtain ⟨k', hk', hle'⟩ := hkeys k hk
      exact .inl ⟨k', hk', hle.trans hle'⟩
    · exact .inr ⟨p, hfailed.trans hp, heq⟩
  have hlatest : ∀ {now}, s.Latest issuer now → t.Latest issuer now := fun hl => by
    unfold Latest
    rwa [hstarts]
  refine ⟨hstarts ▸ h.spaced, fun hq => ?_, fun i j c d hi hj hc hd => ?_, fun hidle => ?_,
    fun i c hi hc => ?_⟩
  · obtain ⟨f, hf, hl⟩ := h.quick (hstarts ▸ hq)
    exact ⟨f, hforced.trans hf, hlatest hl⟩
  · exact h.once i j c d ((hcalls i c hc).mp hi) ((hcalls j d hd).mp hj) hc hd
  · exact hrested (h.rests fun i c hi hc => hidle i c ((hcalls i c hc).mpr hi) hc)
  · obtain ⟨hlt, hstage⟩ := h.flies i c ((hcalls i c hc).mp hi) hc
    refine ⟨hlt, ?_⟩
    revert hstage
    cases c.stage with
    | keys _ _ | done _ => exact id
    | lacks _ _ =>
      intro ⟨hl, hr, hf⟩
      exact ⟨hlatest hl, hrested hr, fun x hx => hf x (hforced ▸ hx)⟩
    | mayFetch _ =>
      intro ⟨hl, hr, hready⟩
      refine ⟨hlatest hl, hrested hr, fun x hx => ?_⟩
      rw [hstarts] at hx ⊢
      rw [hforced, hfailed]
      exact hready x hx
    | discovers _ | awaitsDoc _ _ | awaitsKeys _ _ =>
      unfold Flies
      rw [hstarts]
      exact id
    | ends _ result =>
      intro ⟨hhead, hok⟩
      refine ⟨hstarts ▸ hhead, fun jwks hr => ?_⟩
      obtain ⟨k, hk, hle⟩ := hok jwks hr
      obtain ⟨k', hk', hle'⟩ := hkeys k hk
      exact ⟨k', hk', hle.trans hle'⟩

section

variable {i : ι} {c c' : VerifyCall} {issuer : Issuer}

omit [Jose] in
/-- A call of an issuer's goes on, and no other call of it is under way to a fetch. -/
theorem paced_after (h : ∀ issuer, Paced s issuer) (hi : s.fetcher.calls i = some c)
    (hcalls : g.calls = Function.update s.fetcher.calls i (some c'))
    (hc : c.stage.missing = none ∨ c.stage.missing = some issuer)
    (hc' : c'.stage.missing = none ∨ c'.stage.missing = some issuer)
    (hkeys : ∀ other, other ≠ issuer → g.keys other = s.fetcher.keys other)
    (hforced : ∀ other, other ≠ issuer → g.forced other = s.fetcher.forced other)
    (hfailed : ∀ other, other ≠ issuer → g.failed other = s.fetcher.failed other)
    (hbegun : ∀ p ∈ begun, p.1 = issuer)
    (hothers : ∀ j d, j ≠ i → s.fetcher.calls j = some d → d.stage.missing ≠ some issuer)
    (hspaced : Spaced MIN_TTL.toInt ((s.after g begun answer).startsFor issuer))
    (hquick : Quick MIN_TTL.toInt ((s.after g begun answer).startsFor issuer) →
      ∃ f, g.forced issuer = some f ∧ (s.after g begun answer).Latest issuer f)
    (hrests : c'.stage.missing = none → (s.after g begun answer).Rested issuer)
    (hflies : c'.stage.missing = some issuer → c'.now.toInt + MAX_TTL.toInt < 2 ^ 63 ∧
      (s.after g begun answer).Flies issuer c'.now c'.stage) :
    ∀ issuer, Paced (s.after g begun answer) issuer := by
  intro other
  have hat : ∀ j, g.calls j = if j = i then some c' else s.fetcher.calls j := fun j => by
    rw [hcalls, Function.update_apply]
  by_cases hne : other = issuer
  · subst hne
    refine ⟨hspaced, hquick, fun j k d d' hj hk hd hd' => ?_, fun hidle => ?_, fun j d hj hd => ?_⟩
    · have honly : ∀ j d, g.calls j = some d → d.stage.missing = some other → j = i :=
        fun j d hj hd => by
          by_contra hji
          rw [hat, if_neg hji] at hj
          exact hothers j d hji hj hd
      exact (honly j d hj hd).trans (honly k d' hk hd').symm
    · exact hrests (hc'.resolve_right (hidle i c' ((hat i).trans (if_pos rfl))))
    · have hj : g.calls j = some d := hj
      rw [hat] at hj
      split_ifs at hj with hji
      · obtain rfl := Option.some.inj hj
        exact hflies hd
      · exact absurd hd (hothers j d hji hj)
  · have hapart : ∀ {stage : VerifyStage}, stage.missing = none ∨ stage.missing = some issuer →
        stage.missing ≠ some other := by
      intro stage hs hother
      rcases hs with hs | hs
      · rw [hs] at hother
        cases hother
      · rw [hs] at hother
        exact hne (Option.some.inj hother).symm
    refine (h other).other ?_ (fun k hk => ⟨k, (hkeys other hne).trans hk, le_rfl⟩)
      (hforced other hne) (hfailed other hne) fun j d hd => ?_
    · have hskip : begun.toList.filter (fun p => p.1 = other) = [] := by
        refine List.filter_eq_nil_iff.mpr fun p hp => ?_
        rw [hbegun p (Option.mem_toList.mp hp)]
        simpa using Ne.symm hne
      simp only [startsFor, CachedFetcher.after, List.filter_append, hskip, List.nil_append]
    · show g.calls j = some d ↔ _
      rw [hat]
      split_ifs with hji
      · subst hji
        rw [hi]
        refine iff_of_false (fun heq => ?_) (fun heq => ?_)
        · exact hapart hc' (Option.some.inj heq ▸ hd)
        · exact hapart hc (Option.some.inj heq ▸ hd)
      · exact Iff.rfl

omit [Jose] in
/-- A call that missed the cache goes on, without a fetch beginning. -/
theorem paced_goes (h : ∀ issuer, Paced s issuer) (hi : s.fetcher.calls i = some c)
    (hc : c.stage.missing = some issuer)
    (hcalls : g.calls = Function.update s.fetcher.calls i (some c'))
    (hc' : c'.stage.missing = none ∨ c'.stage.missing = some issuer)
    (hkeys : ∀ other, other ≠ issuer → g.keys other = s.fetcher.keys other)
    (hforced : g.forced = s.fetcher.forced)
    (hfailed : ∀ other, other ≠ issuer → g.failed other = s.fetcher.failed other)
    (hrests : c'.stage.missing = none → (s.after g none answer).Rested issuer)
    (hflies : c'.stage.missing = some issuer → c'.now.toInt + MAX_TTL.toInt < 2 ^ 63 ∧
      (s.after g none answer).Flies issuer c'.now c'.stage) :
    ∀ issuer, Paced (s.after g none answer) issuer := by
  refine paced_after h hi hcalls (.inr hc) hc' hkeys (fun other _ => by rw [hforced]) hfailed nofun
    (fun j d hji hj hd => hji ((h issuer).once j i d c hj hi hd hc)) (h issuer).spaced (fun hq => ?_)
    hrests hflies
  rw [hforced]
  exact (h issuer).quick hq

omit [Jose] [DecidableEq ι] in
theorem Paced.flight (h : Paced s issuer) (hi : s.fetcher.calls i = some c) {stage : VerifyStage}
    (hc : c.stage = stage) (hm : stage.missing = some issuer) : c.stage.missing = some issuer ∧
      c.now.toInt + MAX_TTL.toInt < 2 ^ 63 ∧ s.Flies issuer c.now stage := by
  subst hc
  exact ⟨hm, h.flies i c hi hm⟩

/-- Whether a call can use what memory has for its issuer. -/
def Hits (s : CachedFetcher ι) (issuer : Issuer) (kid : Option String) (now : Int64) : Prop :=
  ∃ k, s.fetcher.keys issuer = some k ∧ now < k.expiresAt ∧ kid.all k.jwks.hasKid = true

/-- A call can go to a fetch alone: no other of its issuer's is under way, its clock is not behind
the issuer's last fetch and the last that was forced, and can be added to. -/
structure Lone (s : CachedFetcher ι) (issuer : Issuer) (now : Int64) : Prop where
  idle : s.Idle issuer
  latest : s.Latest issuer now
  forced : ∀ t, s.fetcher.forced issuer = some t → t ≤ now
  bound : now.toInt + MAX_TTL.toInt < 2 ^ 63

theorem paced_steps (h : ∀ issuer, Paced s issuer) (hstep : s.fetcher.Steps e g begun answer)
    (hlone : ∀ i c issuer kid, e = .cached i → s.fetcher.calls i = some c →
      c.stage = .keys issuer kid → ¬s.Hits issuer kid c.now → s.Lone issuer c.now) :
    ∀ issuer, Paced (s.after g begun answer) issuer := by
  cases hstep with
  | @verify i c hi hc =>
    intro issuer
    refine (h issuer).other rfl (fun k hk => ⟨k, hk, le_rfl⟩) rfl rfl fun j d hd => ?_
    show Function.update s.fetcher.calls i (some c) j = some d ↔ _
    rw [Function.update_apply]
    split_ifs with hji
    · subst hji
      rw [hi]
      refine iff_of_false (fun heq => ?_) nofun
      rw [Option.some.inj heq, hd] at hc
      cases hc
    · exact Iff.rfl
  | @hit i c issuer kid k hi hc _ _ _ =>
    intro issuer
    refine (h issuer).other rfl (fun k hk => ⟨k, hk, le_rfl⟩) rfl rfl fun j d hd => ?_
    show Function.update s.fetcher.calls i (some _) j = some d ↔ _
    rw [Function.update_apply]
    split_ifs with hji
    · subst hji
      rw [hi]
      refine iff_of_false (fun heq => ?_) (fun heq => ?_)
      · rw [← Option.some.inj heq] at hd
        cases hd
      · rw [← Option.some.inj heq, hc] at hd
        cases hd
    · exact Iff.rfl
  | @lacks i c issuer kid k hi hc hk hfresh hkid =>
    have hl := hlone i c issuer kid rfl hi hc fun ⟨k', hk', _, hkid'⟩ => by
      rw [hk] at hk'
      rw [Option.some.inj hk', hkid'] at hkid
      cases hkid
    have hrested : s.Rested issuer := (h issuer).rests hl.idle
    exact paced_after h hi rfl (.inl (by rw [hc]; rfl)) (.inr rfl) (fun _ _ => rfl) (fun _ _ => rfl)
      (fun _ _ => rfl) nofun (fun j d _ => hl.idle j d) (h issuer).spaced (h issuer).quick nofun
      fun _ => ⟨hl.bound, hl.latest, hrested, hl.forced⟩
  | @misses i c issuer kid hi hc hstale =>
    have hl := hlone i c issuer kid rfl hi hc fun ⟨k, hk, hlt, _⟩ =>
      Int64.not_lt.mpr (hstale k hk) hlt
    have hrested : s.Rested issuer := (h issuer).rests hl.idle
    have hready : s.Ready issuer c.now := fun t ht => by
      rcases hrested t ht with ⟨k, hk, hle⟩ | hfailed
      · exact .inl (hle.trans (Int64.le_iff_toInt_le.mp (hstale k hk)))
      · exact .inr (.inl hfailed)
    exact paced_after h hi rfl (.inl (by rw [hc]; rfl)) (.inr rfl) (fun _ _ => rfl) (fun _ _ => rfl)
      (fun _ _ => rfl) nofun (fun j d _ => hl.idle j d) (h issuer).spaced (h issuer).quick nofun
      fun _ => ⟨hl.bound, hl.latest, hrested, hready⟩
  | @limited i c issuer jwks hi hc =>
    obtain ⟨hmissing, -, hflies⟩ := (h issuer).flight hi hc rfl
    exact paced_goes h hi hmissing rfl (.inl rfl) (fun _ _ => rfl) rfl (fun _ _ => rfl)
      (fun _ => hflies.2.1) nofun
  | @forced i c issuer jwks hi hc hlast =>
    obtain ⟨hmissing, hbound, hflies⟩ := (h issuer).flight hi hc rfl
    obtain ⟨hlatest, hrested, hforced⟩ := hflies
    refine paced_after h hi rfl (.inr hmissing) (.inr rfl) (fun _ _ => rfl)
      (fun other hne => Function.update_of_ne hne _ _) (fun _ _ => rfl) nofun
      (fun j d hji hj hd => hji ((h issuer).once j i d c hj hi hd hmissing)) (h issuer).spaced
      (fun _ => ⟨c.now, Function.update_self .., hlatest⟩) nofun
      fun _ => ⟨hbound, hlatest, hrested, fun t ht => ?_⟩
    by_cases hq : Quick MIN_TTL.toInt (s.startsFor issuer)
    · -- The fetch before was forced, so this one waited.
      obtain ⟨f, hf, hl⟩ := (h issuer).quick hq
      have hgap := toInt_of_not_near (Int64.le_iff_toInt_le.mp (hforced f hf)) (hlast f hf)
      have hle := hl t ht
      left
      show t + 60 ≤ c.now.toInt
      omega
    · exact .inr (.inr ⟨Function.update_self .., hq⟩)
  | @refused i c issuer why hi hc =>
    obtain ⟨hmissing, -, hflies⟩ := (h issuer).flight hi hc rfl
    exact paced_goes h hi hmissing rfl (.inl rfl) (fun _ _ => rfl) rfl (fun _ _ => rfl)
      (fun _ => hflies.2.1) nofun
  | @fetches i c issuer hi hc hlast =>
    obtain ⟨hmissing, hbound, hflies⟩ := (h issuer).flight hi hc rfl
    obtain ⟨hlatest, -, hready⟩ := hflies
    have hstarts : (s.after (s.fetcher.goes i (c.goes (.discovers issuer))) (some (issuer, c.now))
        none).startsFor issuer = c.now.toInt :: s.startsFor issuer := by
      simp [startsFor, CachedFetcher.after]
    -- The last fetch is `MIN_TTL` before, or this one is the first forced since one that was not.
    have hgap : ∀ t ∈ (s.startsFor issuer).head?, t + MIN_TTL.toInt ≤ c.now.toInt ∨
        s.fetcher.forced issuer = some c.now ∧ ¬Quick MIN_TTL.toInt (s.startsFor issuer) :=
      fun t ht => by
        rcases hready t ht with hslow | ⟨p, hp, rfl⟩ | hforced
        · exact .inl hslow
        · exact .inl (toInt_of_not_near (hlatest _ ht) (hlast p hp))
        · exact .inr hforced
    refine paced_after h hi rfl (.inr hmissing) (.inr rfl) (fun _ _ => rfl) (fun _ _ => rfl)
      (fun _ _ => rfl) (by rintro p ⟨⟩; rfl)
      (fun j d hji hj hd => hji ((h issuer).once j i d c hj hi hd hmissing)) ?_ (fun hq => ?_) nofun
      fun _ => ⟨hbound, by show _ = some _; rw [hstarts]; rfl⟩
    · rw [hstarts]
      exact (h issuer).spaced.cons hlatest fun t ht => (hgap t ht).imp_right And.right
    · rw [hstarts] at hq
      cases hold : s.startsFor issuer with
      | nil =>
        rw [hold] at hq
        exact hq.elim
      | cons t rest =>
        rw [hold] at hq
        rcases hgap t (by rw [hold]; rfl) with hslow | ⟨hforced, -⟩
        · exact absurd hslow (not_le.mpr hq)
        · refine ⟨c.now, hforced, fun x hx => ?_⟩
          rw [hstarts] at hx
          exact (Option.some.inj hx).ge
  | @knows i c issuer doc hi hc _ =>
    obtain ⟨hmissing, hbound, hflies⟩ := (h issuer).flight hi hc rfl
    exact paced_goes h hi hmissing rfl (.inr rfl) (fun _ _ => rfl) rfl (fun _ _ => rfl) nofun
      fun _ => ⟨hbound, hflies⟩
  | @asks i c issuer url hi hc =>
    obtain ⟨hmissing, hbound, hflies⟩ := (h issuer).flight hi hc rfl
    exact paced_goes h hi hmissing rfl (.inr rfl) (fun _ _ => rfl) rfl (fun _ _ => rfl) nofun
      fun _ => ⟨hbound, hflies⟩
  | @badUrl i c issuer why hi hc =>
    obtain ⟨hmissing, hbound, hflies⟩ := (h issuer).flight hi hc rfl
    exact paced_goes h hi hmissing rfl (.inr rfl) (fun _ _ => rfl) rfl (fun _ _ => rfl) nofun
      fun _ => ⟨hbound, hflies, nofun⟩
  | @document i c issuer url response doc hi hc _ =>
    obtain ⟨hmissing, hbound, hflies⟩ := (h issuer).flight hi hc rfl
    exact paced_goes h hi hmissing rfl (.inr rfl) (fun _ _ => rfl) rfl (fun _ _ => rfl) nofun
      fun _ => ⟨hbound, hflies⟩
  | @badDocument i c issuer url response why hi hc =>
    obtain ⟨hmissing, hbound, hflies⟩ := (h issuer).flight hi hc rfl
    exact paced_goes h hi hmissing rfl (.inr rfl) (fun _ _ => rfl) rfl (fun _ _ => rfl) nofun
      fun _ => ⟨hbound, hflies, nofun⟩
  | @keySet i c issuer doc response jwks ttl hi hc hkeys =>
    obtain ⟨hmissing, hbound, hflies⟩ := (h issuer).flight hi hc rfl
    obtain ⟨hmin, hmax⟩ := ttl_of_fetchedKeys hkeys
    have hbound' : c.now.toInt + 86400 < 2 ^ 63 := hbound
    have hexpires : (c.now + ttl).toInt = c.now.toInt + ttl.toInt :=
      toInt_add_of_lt (by omega) (by omega)
    refine paced_goes h hi hmissing rfl (.inr rfl)
      (fun other hne => Function.update_of_ne hne _ _) rfl (fun _ _ => rfl) nofun
      fun _ => ⟨hbound, hflies, fun _ _ => ⟨_, Function.update_self .., ?_⟩⟩
    show c.now.toInt + 60 ≤ (c.now + ttl).toInt
    omega
  | @badKeySet i c issuer doc response why hi hc =>
    obtain ⟨hmissing, hbound, hflies⟩ := (h issuer).flight hi hc rfl
    exact paced_goes h hi hmissing rfl (.inr rfl) (fun _ _ => rfl) rfl (fun _ _ => rfl) nofun
      fun _ => ⟨hbound, hflies, nofun⟩
  | @settles i c issuer jwks hi hc =>
    obtain ⟨hmissing, -, hflies⟩ := (h issuer).flight hi hc rfl
    obtain ⟨hhead, hok⟩ := hflies
    refine paced_goes h hi hmissing rfl (.inl rfl) (fun _ _ => rfl) rfl
      (fun other hne => Function.update_of_ne hne _ _) (fun _ t ht => ?_) nofun
    obtain rfl : c.now.toInt = t := Option.some.inj (hhead.symm.trans ht)
    exact .inl (hok jwks rfl)
  | @fails i c issuer why hi hc =>
    obtain ⟨hmissing, -, hflies⟩ := (h issuer).flight hi hc rfl
    refine paced_goes h hi hmissing rfl (.inl rfl) (fun _ _ => rfl) rfl
      (fun other hne => Function.update_of_ne hne _ _) (fun _ t ht => ?_) nofun
    obtain rfl : c.now.toInt = t := Option.some.inj (hflies.1.symm.trans ht)
    exact .inr ⟨_, Function.update_self .., rfl⟩

end

/-- A call that finds nothing it can use in the cache can go to a fetch alone. -/
def Alone (path : Issuer → String) (s : CachedFetcher ι) : CacheEvent ι → Prop
  | .key (.cached i) => ∀ c issuer kid, s.fetcher.calls i = some c → c.stage = .keys issuer kid →
      ¬(s.looks path i).Hits issuer kid c.now → s.Lone issuer c.now
  | _ => True

omit [Jose] [DecidableEq ι] in
theorem Paced.looks {issuer : Issuer} (h : Paced s issuer) (i : ι) :
    Paced (s.looks path i) issuer := by
  rcases looks_cases s i with heq | ⟨c, issuer', kid, file, -, -, -, -, hstale, hfresh, heq⟩
  · rw [heq]
    exact h
  · rw [heq]
    refine h.other rfl (fun k hk => ?_) rfl rfl (fun _ _ _ => Iff.rfl)
    simp only [Function.update_apply]
    split_ifs with hi
    · have hle := Int64.le_iff_toInt_le.mp (hstale k (hi ▸ hk))
      have hlt := Int64.lt_iff_toInt_lt.mp hfresh
      exact ⟨file.cached, rfl, by omega⟩
    · exact ⟨k, hk, le_rfl⟩

omit [Jose] [DecidableEq ι] in
theorem calls_looks (s : CachedFetcher ι) (i : ι) :
    (s.looks path i).fetcher.calls = s.fetcher.calls ∧ (s.looks path i).starts = s.starts ∧
      (s.looks path i).fetcher.forced = s.fetcher.forced := by
  rcases looks_cases s i with heq | ⟨c, issuer', kid, file, -, -, -, -, -, -, heq⟩
  · rw [heq]
    exact ⟨rfl, rfl, rfl⟩
  · rw [heq]
    exact ⟨rfl, rfl, rfl⟩

theorem paced_of_goes (h : ∀ issuer, Paced s issuer) (hs : s.goes e = some t)
    (hlone : ∀ i c issuer kid, e = .cached i → s.fetcher.calls i = some c →
      c.stage = .keys issuer kid → ¬s.Hits issuer kid c.now → s.Lone issuer c.now) :
    ∀ issuer, Paced t issuer := by
  obtain ⟨g, begun, answer, hstep, rfl⟩ := steps_of_goes hs
  exact paced_steps h hstep hlone

theorem paced_step {e : CacheEvent ι} (h : ∀ issuer, Paced s issuer) (halone : s.Alone path e)
    (hs : s.step path e = some t) : ∀ issuer, Paced t issuer := by
  have hsame : ∀ {t : CachedFetcher ι}, t.fetcher = s.fetcher → t.starts = s.starts →
      ∀ issuer, Paced t issuer := fun {t} hf hst issuer => by
    refine (h issuer).other (by rw [startsFor, hst]; rfl) (fun k hk => ⟨k, hf ▸ hk, le_rfl⟩)
      (by rw [hf]) (by rw [hf]) (fun _ _ _ => by rw [hf])
  cases e with
  | key e =>
    cases e with
    | verify i trust claim now =>
      simp only [CachedFetcher.step] at hs
      split_ifs at hs
      exact paced_of_goes (s := { s with clock := now }) (hsame rfl rfl) hs nofun
    | cached i =>
      obtain ⟨hcalls, hstarts, hforced⟩ := @calls_looks _ _ path s i
      refine paced_of_goes (fun issuer => (h issuer).looks i) hs ?_
      rintro j c issuer kid ⟨⟩ hi hc hmiss
      have hl := halone c issuer kid (hcalls ▸ hi) hc hmiss
      refine ⟨?_, ?_, ?_, hl.bound⟩
      · unfold Idle
        rw [hcalls]
        exact hl.idle
      · unfold Latest startsFor
        rw [hstarts]
        exact hl.latest
      · rw [hforced]
        exact hl.forced
    | keySet i r => cases hs
    | force i => exact paced_of_goes h hs nofun
    | tries i => exact paced_of_goes h hs nofun
    | discover i => exact paced_of_goes h hs nofun
    | document i r => exact paced_of_goes h hs nofun
    | settle i => exact paced_of_goes h hs nofun
  | receives i response written =>
    simp only [CachedFetcher.step] at hs
    split at hs
    · split at hs <;> obtain rfl := Option.some.inj hs <;> exact hsame rfl rfl
    · cases hs
  | stores i =>
    obtain ⟨r, -, hs⟩ := Option.bind_eq_some_iff.mp hs
    exact paced_of_goes h hs nofun
  | elsewhere set =>
    simp only [CachedFetcher.step] at hs
    split_ifs at hs
    split at hs
    · cases hs
    · obtain rfl := Option.some.inj hs
      exact hsame rfl rfl
  | lost p =>
    obtain rfl := Option.some.inj hs
    exact hsame rfl rfl

theorem paced_of_run {es : List (CacheEvent ι)}
    (halone : ∀ es₁ e es₂ u, es = es₁ ++ e :: es₂ → run (step path) start es₁ = some u →
      u.Alone path e)
    (hrun : run (step path) start es = some s) (issuer : Issuer) : Paced s issuer := by
  refine run_invariant_of (P := fun s => ∀ issuer, Paced s issuer) (C := fun s e => s.Alone path e)
    (fun s e t h hc hs => paced_step h hc hs) (fun issuer => ?_) halone hrun issuer
  have hnone : ∀ i c, (start : CachedFetcher ι).fetcher.calls i ≠ some c := fun _ c =>
    (Option.some_ne_none c).symm
  exact ⟨trivial, False.elim, fun i _ c _ hc => absurd hc (hnone i c), fun _ => nofun,
    fun i c hc => absurd hc (hnone i c)⟩

/-- Whatever the calls, a key set that is returned was fetched for its issuer, not longer ago than
the longest lifetime. If each call that finds nothing it can use in the cache can go to a fetch
alone, no window of the shortest lifetime sees more than two fetches of one issuer's keys begin. -/
theorem keys_limited (path : Issuer → String) (es : List (CacheEvent ι)) (s : CachedFetcher ι)
    (hrun : run (step path) start es = some s) :
    (∀ a ∈ s.answers, ∀ jwks, a.result = .ok jwks → Have s.fetched a.issuer jwks a.now.toInt) ∧
    ((∀ es₁ e es₂ u, es = es₁ ++ e :: es₂ → run (step path) start es₁ = some u →
        u.Alone path e) →
      ∀ issuer x, (inWindow x MIN_TTL.toInt (s.startsFor issuer)).length ≤ 2) :=
  ⟨(kept_of_run hrun).answers, fun halone issuer _ =>
    (paced_of_run halone hrun issuer).spaced.length_window⟩

theorem step_verify {i : ι} {trust : IdpTrust} {claim : IdentityClaim} {now : Int64} {issuer : Issuer}
    {kid : Option String} (hi : s.fetcher.calls i = none) (hclock : s.clock ≤ now)
    (ho : opened claim trust.issuers = .ok (issuer, kid)) :
    s.step path (.key (.verify i trust claim now)) = some { s with
      clock := now
      fetcher := s.fetcher.goes i ⟨trust, claim, now, .keys issuer kid⟩ } := by
  simp only [step, if_pos hclock, goes, KeyFetcher.step, hi, ho, KeyFetcher.begins, KeyFetcher.returns]
  rfl

/-- A call that finds nothing in the cache, or on disk. -/
theorem step_cached {i : ι} {c : VerifyCall} {issuer : Issuer} {kid : Option String}
    (hi : s.fetcher.calls i = some c) (hstage : c.stage = .keys issuer kid)
    (hkeys : s.fetcher.keys issuer = none) (hfile : s.files (path issuer) = none) :
    s.step path (.key (.cached i)) = some { s with
      fetcher := s.fetcher.goes i (c.goes (.mayFetch issuer)) } := by
  obtain ⟨trust, claim, now, stage⟩ := c
  obtain rfl : stage = .keys issuer kid := hstage
  have hlooks : s.looks path i = s := by
    simp only [looks, hi, KeyFetcher.loaded, hkeys, hfile, Option.any_none, Option.filter_none]
    rfl
  simp only [step, hlooks, goes, KeyFetcher.step, hi, hkeys, Option.filter_none, KeyFetcher.begins,
    KeyFetcher.returns]
  rfl

theorem step_tries {i : ι} {c : VerifyCall} {issuer : Issuer} (hi : s.fetcher.calls i = some c)
    (hstage : c.stage = .mayFetch issuer) (hfailed : s.fetcher.failed issuer = none) :
    s.step path (.key (.tries i)) = some { s with
      fetcher := s.fetcher.goes i (c.goes (.discovers issuer))
      starts := (issuer, c.now) :: s.starts } := by
  obtain ⟨trust, claim, now, stage⟩ := c
  obtain rfl : stage = .mayFetch issuer := hstage
  simp only [step, goes, KeyFetcher.step, hi, hfailed, Option.filter_none, KeyFetcher.begins,
    KeyFetcher.returns]
  rfl

/-- A call that misses the cache fetches, and remembers the key set for the others. -/
theorem run_fetching {i : ι} {trust : IdpTrust} {claim : IdentityClaim} {now ttl : Int64}
    {issuer : Issuer} {url : Web.Url} {doc : Discovery} {jwks : Jwks} {document keySet : Response}
    (hcall : s.fetcher.calls i = some ⟨trust, claim, now, .keys issuer none⟩)
    (hkeys : s.fetcher.keys issuer = none) (hfile : s.files (path issuer) = none)
    (hfailed : s.fetcher.failed issuer = none) (hdiscovery : s.fetcher.discovery issuer = none)
    (hreceived : s.received i = none) (hurl : discoveryUrl issuer = .ok url)
    (hdoc : discovered issuer url document = .ok doc)
    (hkeySet : fetchedKeys doc keySet = .ok (jwks, ttl)) :
    ∃ t, run (step path) s [.key (.cached i), .key (.tries i), .key (.discover i),
        .key (.document i document), .receives i keySet true, .stores i, .key (.settle i)] = some t ∧
      t.fetcher.keys issuer = some ⟨now + ttl, jwks⟩ ∧
      (∀ j, j ≠ i → t.fetcher.calls j = s.fetcher.calls j) ∧
      t.answers = ⟨issuer, now, .ok jwks⟩ :: s.answers := by
  have hlooks : s.looks path i = s := by
    simp only [looks, hcall, KeyFetcher.loaded, hkeys, hfile, Option.any_none, Option.filter_none]
    rfl
  simp only [run, step, goes, hlooks, KeyFetcher.step, KeyFetcher.begins, KeyFetcher.returns, KeyFetcher.goes,
    VerifyCall.goes, VerifyCall.answered, hcall, hkeys, hfailed, hdiscovery, hreceived, hurl, hdoc, hkeySet,
    Function.update_self, Option.filter_none, Option.bind_some, Option.map_some, Option.any_none]
  refine ⟨_, rfl, Function.update_self issuer _ _, fun j hj => ?_, rfl⟩
  simp [Function.update_of_ne hj]

end CachedFetcher

end

/-! ## Three calls at once -/

section Sample

attribute [local instance] Crypto.plain Jose.plain Web.plain

namespace CachedFetcher

/-- Call `i` of `keys` begins. -/
def beginCall {ι : Type} (i : ι) : CacheEvent ι :=
  .key (.verify i (trustConfig.trust trustPolicy) trustClaim 100)

/-- Three calls, each of which looks into the cache before any has fetched. -/
def threeFetches : List (CacheEvent (Fin 3)) :=
  [beginCall 0, beginCall 1, beginCall 2, .key (.cached 0), .key (.cached 1), .key (.cached 2),
    .key (.tries 0), .key (.tries 1), .key (.tries 2)]

theorem run_threeFetches : ∃ s : CachedFetcher (Fin 3),
    run (step id) start threeFetches = some s ∧
      s.starts = [("idp", 100), ("idp", 100), ("idp", 100)] := by
  have ho := opened_trustClaim
  exact ⟨_,
    run_cons.mpr ⟨_, step_verify rfl (by decide) ho,
    run_cons.mpr ⟨_, step_verify rfl (by decide) ho,
    run_cons.mpr ⟨_, step_verify rfl (by decide) ho,
    run_cons.mpr ⟨_, step_cached rfl rfl rfl rfl,
    run_cons.mpr ⟨_, step_cached rfl rfl rfl rfl,
    run_cons.mpr ⟨_, step_cached rfl rfl rfl rfl,
    run_cons.mpr ⟨_, step_tries rfl rfl rfl,
    run_cons.mpr ⟨_, step_tries rfl rfl rfl,
    run_cons.mpr ⟨_, step_tries rfl rfl rfl, rfl⟩⟩⟩⟩⟩⟩⟩⟩⟩, rfl⟩

/-- Three calls that miss the cache at once all fetch. -/
theorem not_limited : ¬∀ (path : Issuer → String) (es : List (CacheEvent (Fin 3)))
    (s : CachedFetcher (Fin 3)), run (step path) start es = some s →
    ∀ issuer x, (inWindow x MIN_TTL.toInt (s.startsFor issuer)).length ≤ 2 := by
  intro hall
  obtain ⟨s, hrun, hstarts⟩ := run_threeFetches
  have hthree := hall id threeFetches s hrun "idp" 100
  rw [startsFor, hstarts] at hthree
  exact absurd hthree (by decide)

/-- A call that misses the cache, up to the key set it remembers. -/
def fetchCall {ι : Type} (i : ι) : List (CacheEvent ι) :=
  [.key (.cached i), .key (.tries i), .key (.discover i),
    .key (.document i (.ok (utf8 sampleDocument.compact, none))),
    .receives i (.ok (utf8 sampleKeySet.compact, none)) true, .stores i, .key (.settle i)]

/-- Two calls at once, the second of which looks into the cache when the first has fetched. -/
def twoCalls : List (CacheEvent Bool) :=
  [beginCall false, beginCall true] ++ (fetchCall false ++ [.key (.cached true)])

/-- Both calls have begun. -/
def twoBegun : CachedFetcher Bool := { start with
  fetcher := (KeyFetcher.new.goes false ⟨trustConfig.trust trustPolicy, trustClaim, 100,
    .keys "idp" none⟩).goes true ⟨trustConfig.trust trustPolicy, trustClaim, 100, .keys "idp" none⟩
  clock := 100 }

theorem run_twoBegun : run (step id) start [beginCall false, beginCall true] = some twoBegun :=
  run_cons.mpr ⟨_, step_verify rfl (by decide) opened_trustClaim, run_cons.mpr
    ⟨_, step_verify rfl (by decide) opened_trustClaim, rfl⟩⟩

theorem alone_twoBegun : twoBegun.Alone id (.key (.cached false)) := by
  rintro c issuer kid hc - -
  obtain rfl := Option.some.inj (hc : some _ = some c)
  refine ⟨fun i d hd hmissing => ?_, fun t ht => ?_, fun t ht => ?_, by decide⟩
  · cases i <;> obtain rfl := Option.some.inj (hd : some _ = some d) <;> cases hmissing
  · cases ht
  · cases ht

/-- The first call leaves its key set for the second. -/
theorem run_fetchCall : ∃ s : CachedFetcher Bool, run (step id) twoBegun (fetchCall false) = some s ∧
    s.fetcher.keys "idp" = some ⟨100 + 3600, ⟨[sampleJwk]⟩⟩ ∧
    s.fetcher.calls true = some ⟨trustConfig.trust trustPolicy, trustClaim, 100, .keys "idp" none⟩ ∧
    s.answers = [⟨"idp", 100, .ok ⟨[sampleJwk]⟩⟩] := by
  obtain ⟨s, hrun, hkeys, hcalls, hanswers⟩ := @run_fetching _ _ _ _ twoBegun id false _ _ _ _ _ _ _ _ _ _
    rfl rfl rfl rfl rfl rfl rfl discovered_sampleDocument fetchedKeys_sampleKeySet
  exact ⟨s, hrun, hkeys, hcalls true nofun, hanswers⟩

/-- Each looks into the cache alone, or finds what it can use there. -/
theorem along_twoCalls : Along (step id) (Alone id) start twoCalls := by
  obtain ⟨s, hrun, hkeys, hcall, -⟩ := run_fetchCall
  have hhits : s.Alone id (.key (.cached true)) := by
    intro c issuer kid hc hstage hmiss
    obtain rfl := Option.some.inj (hcall.symm.trans hc)
    obtain ⟨rfl, rfl⟩ := VerifyStage.keys.inj hstage
    refine absurd ⟨⟨100 + 3600, ⟨[sampleJwk]⟩⟩, ?_, by decide, rfl⟩ hmiss
    simp [looks, hcall, KeyFetcher.loaded, hkeys]
  refine along_append.mpr ⟨along_of_forall fun e he t => ?_, fun t ht => ?_⟩
  · simp only [beginCall, List.mem_cons, List.not_mem_nil, or_false] at he
    rcases he with rfl | rfl <;> trivial
  · obtain rfl := Option.some.inj (run_twoBegun.symm.trans ht)
    refine along_append.mpr ⟨⟨alone_twoBegun, fun u _ => along_of_forall fun e he t => ?_⟩,
      fun u hu => ?_⟩
    · simp only [List.mem_cons, List.not_mem_nil, or_false] at he
      rcases he with rfl | rfl | rfl | rfl | rfl | rfl <;> trivial
    · obtain rfl := Option.some.inj (hrun.symm.trans hu)
      exact ⟨hhits, fun _ _ => trivial⟩

/-- The second is given what the first fetched. -/
theorem run_twoCalls : ∃ s : CachedFetcher Bool, run (step id) start twoCalls = some s ∧
    s.answers = [⟨"idp", 100, .ok ⟨[sampleJwk]⟩⟩, ⟨"idp", 100, .ok ⟨[sampleJwk]⟩⟩] := by
  obtain ⟨s, hrun, hkeys, hcall, hanswers⟩ := run_fetchCall
  obtain ⟨t, ht, htanswers⟩ : ∃ t : CachedFetcher Bool, s.step id (.key (.cached true)) = some t ∧
      t.answers = ⟨"idp", 100, .ok ⟨[sampleJwk]⟩⟩ :: s.answers := by
    simp [step, goes, looks, hcall, KeyFetcher.loaded, hkeys, KeyFetcher.step, KeyFetcher.returns,
      Option.filter_some]
  refine ⟨t, run_append.mpr ⟨_, run_twoBegun, run_concat.mpr ⟨s, hrun, ht⟩⟩, ?_⟩
  rw [htanswers, hanswers]

theorem keys_limited_sample : ∃ s : CachedFetcher Bool, run (step id) start twoCalls = some s ∧
    s.answers.length = 2 ∧ Have s.fetched "idp" ⟨[sampleJwk]⟩ 100 ∧
      (inWindow 100 MIN_TTL.toInt (s.startsFor "idp")).length ≤ 2 := by
  obtain ⟨s, hrun, hanswers⟩ := run_twoCalls
  obtain ⟨hkept, hpaced⟩ := keys_limited id twoCalls s hrun
  refine ⟨s, hrun, by rw [hanswers]; rfl, ?_, hpaced (along_iff.mp along_twoCalls) "idp" 100⟩
  exact hkept ⟨"idp", 100, .ok ⟨[sampleJwk]⟩⟩ (by rw [hanswers]; exact List.mem_cons_self) _ rfl

end CachedFetcher

end Sample

end Wires
