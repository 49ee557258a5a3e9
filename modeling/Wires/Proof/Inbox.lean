import Wires.Impl.Push
import Wires.Proof.Signing
import Wires.Proof.Store
import Wires.Proof.Trust

/-!
# Whose fetch it is

A host admits an inbox fetch as the person of the token it carries, and then
decides by the principal it knows the node by, which is the one with the latest
expiry (`Known.keep`). So where two persons use one node, the push rule can ask
about the other one (`not_own_person`). `own_person` is what holds of every run
whose fetches are decided by their own person's claims.
-/

namespace Wires

/-! ## A person's claims -/

/-- What a policy can read of a principal: everything but when it expires. -/
def Principal.claims (p : Principal) : Principal := { p with notAfter := 0 }

theorem checkAdmitted_claims (policy : Policy) (node : NodeId) (p : Principal) :
    checkAdmitted policy node p.claims = checkAdmitted policy node p := rfl

theorem bansPerson_claims (policy : Policy) (p : Principal) :
    policy.bansPerson p.claims = policy.bansPerson p := rfl

theorem roleAdmits_claims (policy : Policy) (r : RoleName) (p : Principal) :
    policy.roleAdmits r (some p.claims) = policy.roleAdmits r (some p) := by
  unfold Policy.roleAdmits admits
  cases policy.roles.get? r <;> rfl

theorem banned_of_checkAdmitted {policy : Policy} {node : NodeId} {p : Principal}
    (h : checkAdmitted policy node p = .error .banned) :
    policy.bansNode node = true ∨ policy.bansPerson p = true := by
  simp only [checkAdmitted, bind_eq_error, ensure_eq_error, ensure_eq_ok, reduceCtorEq, and_false,
    false_or, exists_const, and_true] at h
  obtain hnode | ⟨-, -, hperson⟩ := h
  · exact .inl (not_not.mp hnode)
  · exact .inr (by simpa using hperson)

/-! ## The known principals -/

section

variable {known : Known} {node : NodeId} {now : Int64} {p : Principal}

theorem isFresh_iff : isFresh p now = true ↔ now.toInt ≤ p.notAfter.toInt + 60 := by
  rw [← not_gt_satAdd_skew, isFresh, decide_eq_true_eq, gt_iff_lt, Int64.not_lt]

theorem isFresh_mono {q : Principal} (h : isFresh p now = true) (hle : p.notAfter ≤ q.notAfter) :
    isFresh q now = true := by
  rw [isFresh_iff] at h ⊢
  rw [Int64.le_iff_toInt_le] at hle
  omega

namespace Known

/-- A node is known by someone who expires no earlier than `p`. -/
def Outlasts (known : Known) (node : NodeId) (p : Principal) : Prop :=
  ∃ entry, known node = some entry ∧ p.notAfter ≤ entry.notAfter

theorem outlasts_keep : (known.keep node p).Outlasts node p := by
  unfold keep
  split_ifs with h
  · exact ⟨p, Function.update_self .., Int64.le_refl _⟩
  · obtain ⟨held, hheld⟩ : ∃ held, known node = some held := by
      cases hk : known node with
      | none => simp [hk] at h
      | some held => exact ⟨held, rfl⟩
    rw [hheld, Option.all_some, decide_eq_true_eq, ge_iff_le, Int64.not_le] at h
    exact ⟨held, hheld, Int64.le_of_lt h⟩

theorem keep_self (h : known node = none) : known.keep node p node = some p := by
  rw [keep, h, if_pos (by rfl), Function.update_self]

theorem Outlasts.keep {other : NodeId} {q : Principal} (h : known.Outlasts node p) :
    (known.keep other q).Outlasts node p := by
  obtain ⟨held, hheld, hle⟩ := h
  unfold Known.keep
  split_ifs with hnew
  · by_cases hn : node = other
    · subst hn
      rw [hheld, Option.all_some, decide_eq_true_eq] at hnew
      exact ⟨q, Function.update_self .., Int64.le_trans hle hnew⟩
    · exact ⟨held, by rwa [Function.update_of_ne hn], hle⟩
  · exact ⟨held, hheld, hle⟩

/-- Someone in time is known by a principal who is in time. -/
theorem Outlasts.current (h : known.Outlasts node p) (hfresh : isFresh p now = true) :
    ∃ entry, known node = some entry ∧ known.current node now = some entry := by
  obtain ⟨entry, hentry, hle⟩ := h
  refine ⟨entry, hentry, ?_⟩
  rw [Known.current, hentry, Option.filter_some, if_pos (isFresh_mono hfresh hle)]

end Known

theorem isFresh_of_verify [Web] [Jose] {trust : IdpTrust} {claim : IdentityClaim}
    {keys : Issuer → Option String → Except Anyhow Jwks}
    (h : KeyFetcher.verify trust claim now keys = .ok p) : isFresh p now = true := by
  obtain ⟨jws, jwks, -, -, hvalid, -⟩ := verify_eq_ok.mp h
  exact isFresh_iff.mpr hvalid.unexpired

end

/-! ## Decisions -/

section

variable [Crypto] {root : NodeId} {state : Held root} {allow : List RoleName} {node : NodeId}
  {now : Int64} {p : Principal}

theorem decidePush_eq_ok : (∃ x, decidePush state allow node now (some p) = .ok x) ↔
    now ≤ state.signed.head.head.notAfter ∧ checkAdmitted state.policy node p = .ok () ∧
      ∃ r ∈ allow, state.policy.roleAdmits r (some p) = true := by
  simp only [decidePush, stillAdmitted, bind_eq_ok, mapErr_eq_ok, ensure_eq_ok, orError_eq_ok,
    pure_eq_ok, exists_const, Held.checkFresh, SignedPolicyHead.checkFresh_eq_ok]
  constructor
  · rintro ⟨x, hfresh, ⟨⟩, hadmitted, -, r, hr, -⟩
    have hadmits := List.find?_some hr
    exact ⟨hfresh, hadmitted, r, List.mem_of_find?_eq_some hr, hadmits⟩
  · rintro ⟨hfresh, hadmitted, r, hr, hadmits⟩
    have hsome := (List.find?_isSome (p := fun r => state.policy.roleAdmits r (some p))).mpr
      ⟨r, hr, hadmits⟩
    obtain ⟨r', hr'⟩ := Option.isSome_iff_exists.mp hsome
    exact ⟨_, hfresh, (), hadmitted, List.ne_nil_of_mem hr, r', hr', rfl⟩

theorem banned_of_decidePush {why : String}
    (h : decidePush state allow node now (some p) = .error (.notAdmitted why)) :
    state.policy.bansNode node = true ∨ state.policy.bansPerson p = true := by
  simp only [decidePush, stillAdmitted, bind_eq_error, mapErr_eq_error, ensure_eq_error,
    orError_eq_error, reduceCtorEq, and_false, exists_false, false_or, or_false, pure,
    Except.pure] at h
  obtain ⟨-, -, e, he, hwhy⟩ := h
  -- only a ban is answered with `NotAdmitted`
  have hban : e = .banned := by
    cases e <;> first | rfl | cases hwhy
  exact banned_of_checkAdmitted (hban ▸ he)

/-! ## Admission -/

theorem admitCaller_eq_ok {token : IdToken} {verdict : Except VerifyError Principal}
    {verified : Verified} : admitCaller state node token verdict = .ok verified ↔
      verdict = .ok verified.principal ∧ verified.token = token ∧
        checkAdmitted state.policy node verified.principal = .ok () := by
  obtain ⟨t, q⟩ := verified
  cases verdict with
  | error e => cases e <;> simp [admitCaller]
  | ok p =>
    cases hc : checkAdmitted state.policy node p with
    | error e =>
      simp only [admitCaller, hc, reduceCtorEq, Except.ok.injEq, false_iff, not_and]
      rintro rfl -
      simp [hc]
    | ok =>
      simp only [admitCaller, hc, Except.ok.injEq, Verified.mk.injEq]
      constructor
      · rintro ⟨rfl, rfl⟩
        exact ⟨rfl, rfl, hc⟩
      · rintro ⟨rfl, rfl, -⟩
        exact ⟨rfl, rfl⟩

/-- Whoever is refused as banned is on a banned node, or is a banned person. -/
theorem banned_of_admitCaller {token : IdToken} {verdict : Except VerifyError Principal}
    {refused : NotAdmitted} (h : admitCaller state node token verdict = .error refused)
    (hb : refused.banned = true) : state.policy.bansNode node = true ∨
      ∃ own, (verdict = .ok own ∨ verdict = .error (.expired own)) ∧
        state.policy.bansPerson own = true := by
  cases verdict with
  | error e =>
    cases e with
    | expired own =>
      cases h
      rcases Bool.or_eq_true _ _ ▸ hb with hnode | hperson
      · exact .inl hnode
      · exact .inr ⟨own, .inr rfl, hperson⟩
    | untrusted | unavailable | rejected =>
      cases h
      exact .inl hb
  | ok own =>
    cases hc : checkAdmitted state.policy node own with
    | ok => simp [admitCaller, hc] at h
    | error e =>
      simp only [admitCaller, hc, Except.error.injEq] at h
      subst h
      rw [decide_eq_true_eq] at hb
      rcases banned_of_checkAdmitted (hb ▸ hc) with hnode | hperson
      · exact .inl hnode
      · exact .inr ⟨own, .inl rfl, hperson⟩

/-! ## From stage to stage -/

namespace PushHost

variable {ι : Type} [DecidableEq ι] {p p' : PushHost root ι}

/-- Visit `i` comes from one stage to another, and nobody is recorded. -/
structure Goes (p p' : PushHost root ι) (i : ι) (v w : Visit root) : Prop where
  was : p.visits i = v
  visits : p'.visits = Function.update p.visits i w
  known : p'.known = p.known

namespace Goes

variable {i : ι} {v w : Visit root}

theorem of (hi : p.visits i = v) : p.Goes (p.goes i w) i v w := ⟨hi, rfl, rfl⟩

theorem settle (h : p.Goes p' i v w) (kind : VisitKind) : p.Goes (p'.settle kind) i v w := by
  unfold PushHost.settle
  split
  · exact ⟨h.was, h.visits, h.known⟩
  · exact h

theorem drop (h : p.Goes p' i v w) (node : NodeId) (dropped : Bool) :
    p.Goes (p'.drop node dropped) i v w := by
  unfold PushHost.drop
  split
  · exact ⟨h.was, h.visits, h.known⟩
  · exact h

end Goes

end PushHost

/-! ## Visits -/

variable [Web] [Jose]

namespace Judged

variable {j : Judged root} {own : Principal}

/-- The person its token verified as is admitted under the policy it was judged by. -/
def Admitted (j : Judged root) : Prop :=
  ∃ own, j.verdict = some (.ok own) ∧ checkAdmitted j.state.policy j.caller own = .ok ()

/-- Its token names the person, in time or not. -/
def Names (j : Judged root) (own : Principal) : Prop :=
  j.verdict = some (.ok own) ∨ j.verdict = some (.error (.expired own))

/-- A policy bans its node, or the person its token names. -/
def BannedBy (j : Judged root) (policy : Policy) : Prop :=
  policy.bansNode j.caller = true ∨ ∃ own, j.Names own ∧ policy.bansPerson own = true

/-- Its verdict is its token's, with some keys and under some issuers. -/
def OwnVerdict (j : Judged root) : Prop :=
  ∃ trust keys, j.verdict = j.token.map fun t => KeyFetcher.verify trust ⟨j.caller, t⟩ j.now keys

/-- It was judged by its verdict. -/
structure Sound (j : Judged root) : Prop where
  own : j.OwnVerdict
  admission : j.result =
    admission j.state j.caller (j.token.bind fun t => j.verdict.map fun v => (t, v))

/-- A verdict is of a token. -/
theorem OwnVerdict.result (h : j.OwnVerdict) :
    (j.token.bind fun t => j.verdict.map fun v => (t, v)) = none ∧ j.verdict = none ∨
      ∃ t v, (j.token.bind fun t => j.verdict.map fun v => (t, v)) = some (t, v) ∧
        j.verdict = some v := by
  obtain ⟨trust, keys, hv⟩ := h
  cases ht : j.token with
  | none => exact .inl ⟨rfl, by rw [hv, ht]; rfl⟩
  | some t =>
    rw [ht, Option.map_some] at hv
    exact .inr ⟨t, _, by rw [hv]; rfl, hv⟩

theorem Sound.admitted (h : j.Sound) {verified : Verified} (hr : j.result = .ok verified) :
    j.verdict = some (.ok verified.principal) ∧
      checkAdmitted j.state.policy j.caller verified.principal = .ok () := by
  have hadm := h.admission.symm.trans hr
  rcases h.own.result with ⟨hnone, -⟩ | ⟨t, v, hsome, hv⟩
  · rw [hnone] at hadm
    cases hadm
  · rw [hsome] at hadm
    obtain ⟨rfl, -, hc⟩ := admitCaller_eq_ok.mp hadm
    exact ⟨hv, hc⟩

theorem Sound.refused (h : j.Sound) {refused : NotAdmitted} (hr : j.result = .error refused) :
    ¬j.Admitted ∧ ((refused.banned || j.state.policy.bansNode j.caller) = true →
      j.BannedBy j.state.policy) := by
  have hadm := h.admission.symm.trans hr
  rcases h.own.result with ⟨hnone, hv⟩ | ⟨t, v, hsome, hv⟩
  · rw [hnone] at hadm
    cases hadm
    refine ⟨?_, fun hb => .inl (by simpa using hb)⟩
    rintro ⟨own, hown, -⟩
    rw [hv] at hown
    cases hown
  · rw [hsome] at hadm
    replace hadm : admitCaller j.state j.caller t v = .error refused := hadm
    constructor
    · rintro ⟨own, hown, hc⟩
      obtain rfl : v = .ok own := Option.some.inj (hv.symm.trans hown)
      have hok : admitCaller j.state j.caller t (.ok own) = .ok ⟨t, own⟩ :=
        admitCaller_eq_ok.mpr ⟨rfl, rfl, hc⟩
      rw [hok] at hadm
      cases hadm
    · intro hb
      rw [Bool.or_eq_true] at hb
      rcases hb with hb | hnode
      · rcases banned_of_admitCaller hadm hb with hnode | ⟨own, hown, hperson⟩
        · exact .inl hnode
        · refine .inr ⟨own, ?_, hperson⟩
          unfold Names
          rw [hv]
          simpa using hown
      · exact .inl hnode

theorem Sound.isFresh (h : j.Sound) (hv : j.verdict = some (.ok own)) : isFresh own j.now = true := by
  obtain ⟨trust, keys, he⟩ := h.own
  rw [hv] at he
  obtain ⟨t, -, ht⟩ := Option.map_eq_some_iff.mp he.symm
  exact isFresh_of_verify ht

end Judged

namespace Decided

/-- The person its token verified as is admitted under the two policies it was judged and decided
by, and is in a `push.allow` role of the second, which has not expired. -/
def Entitled (allow : List RoleName) (d : Decided root) : Prop :=
  ∃ own state, d.verdict = some (.ok own) ∧
    checkAdmitted d.state.policy d.caller own = .ok () ∧ d.again = some state ∧
    d.now ≤ state.signed.head.head.notAfter ∧ checkAdmitted state.policy d.caller own = .ok () ∧
    ∃ r ∈ allow, state.policy.roleAdmits r (some own) = true

/-- It was decided as the person its token names. -/
structure Fair (allow : List RoleName) (d : Decided root) : Prop where
  sound : d.toJudged.Sound
  answered : (∃ x, d.answer = .ok x) ↔ d.Entitled allow
  banned : ∀ why, d.answer = .error (.notAdmitted why) →
    ∃ state, d.again = some state ∧ d.BannedBy state.policy

end Decided

/-- Deciding by one's own claims is fair. -/
theorem fair_authorizePush {j : Judged root} {known : Known} {verified : Verified} (hs : j.Sound)
    (hr : j.result = .ok verified) (hk : known.Outlasts j.caller verified.principal)
    (hown : ∀ entry, known j.caller = some entry → entry.claims = verified.principal.claims)
    (again : Option (Held root)) : (authorizePush allow known j again).Fair allow := by
  obtain ⟨hverdict, hadmitted⟩ := hs.admitted hr
  obtain ⟨entry, hentry, hcurrent⟩ := hk.current (hs.isFresh hverdict)
  have hclaims := hown entry hentry
  cases again with
  | none =>
    refine ⟨hs, ⟨?_, ?_⟩, nofun⟩
    · rintro ⟨x, hx⟩
      cases hx
    · rintro ⟨own, state, -, -, hagain, -⟩
      cases hagain
  | some state =>
    have hanswer : (authorizePush allow known j (some state)).answer =
        decidePush state allow j.caller j.now (some entry) := by
      show decidePush state allow j.caller j.now (known.current j.caller j.now) = _
      rw [hcurrent]
    have hcheck : checkAdmitted state.policy j.caller entry =
        checkAdmitted state.policy j.caller verified.principal := by
      rw [← checkAdmitted_claims, hclaims, checkAdmitted_claims]
    have hrole : ∀ r, state.policy.roleAdmits r (some entry) =
        state.policy.roleAdmits r (some verified.principal) := fun r => by
      rw [← roleAdmits_claims, hclaims, roleAdmits_claims]
    refine ⟨hs, ?_, fun why hwhy => ?_⟩
    · rw [hanswer, decidePush_eq_ok, hcheck]
      simp only [hrole]
      constructor
      · rintro ⟨hfresh, hc, hr⟩
        exact ⟨verified.principal, state, hverdict, hadmitted, rfl, hfresh, hc, hr⟩
      · rintro ⟨own, state', hown', -, hagain, hfresh, hc, hr⟩
        obtain rfl : state = state' := Option.some.inj hagain
        obtain rfl : verified.principal = own :=
          Except.ok.inj (Option.some.inj (hverdict.symm.trans hown'))
        exact ⟨hfresh, hc, hr⟩
    · rw [hanswer] at hwhy
      refine ⟨state, rfl, ?_⟩
      rcases banned_of_decidePush hwhy with hnode | hperson
      · exact .inl hnode
      · rw [← bansPerson_claims, hclaims, bansPerson_claims] at hperson
        exact .inr ⟨verified.principal, .inl hverdict, hperson⟩

namespace Visit

/-- What was judged of it. -/
def heard : Visit root → Option (Judged root)
  | .judged j | .admitted j | .refused j _ | .deciding j => some j
  | .decided d | .denied d _ _ | .polls d | .delivers d _ | .fetched d => some d.toJudged
  | .absent | .opens _ | .gone _ => none

/-- What was decided of a fetch that is handed what is queued, once there is something. -/
def handed : Visit root → Option (Decided root)
  | .polls d | .delivers d _ | .fetched d => some d
  | _ => none

/-- A fetch is authorized as the person fetching. -/
structure Fair (allow : List RoleName) (v : Visit root) : Prop where
  own : ∀ j, v.heard = some j → j.OwnVerdict
  decided : ∀ d, v = .decided d → ((∃ x, d.answer = .ok x) ↔ d.Entitled allow)
  handed : ∀ d, v.handed = some d → d.Entitled allow
  denied : ∀ d said dropped, v = .denied d said dropped →
    (d.Entitled allow → said = TOO_MANY_FETCHES ∧ dropped = false) ∧
    (dropped = true → ∃ state, d.again = some state ∧ d.BannedBy state.policy)
  refused : ∀ j dropped, v = .refused j dropped →
    ¬j.Admitted ∧ (dropped = true → j.BannedBy j.state.policy)

/-- What a run of fair decisions keeps of a visit. -/
def Good (allow : List RoleName) (known : Known) : Visit root → Prop
  | .absent | .opens _ | .gone _ => True
  | .judged j => j.Sound
  | .admitted j | .deciding j => j.Sound ∧ ∃ verified, j.result = .ok verified ∧
      known.Outlasts j.caller verified.principal
  | .refused j dropped => j.Sound ∧ ∃ refused, j.result = .error refused ∧
      (dropped = true → (refused.banned || j.state.policy.bansNode j.caller) = true)
  | .decided d => d.Fair allow
  | .denied d said dropped => d.Fair allow ∧
      ((∃ x, d.answer = .ok x) → said = TOO_MANY_FETCHES ∧ dropped = false) ∧
      (dropped = true → ∃ why, d.answer = .error (.notAdmitted why))
  | .polls d | .delivers d _ | .fetched d => d.Fair allow ∧ ∃ x, d.answer = .ok x

variable {v : Visit root} {known : Known}

theorem Good.keep {other : NodeId} {q : Principal} (h : v.Good allow known) :
    v.Good allow (known.keep other q) := by
  cases v with
  | admitted j | deciding j =>
    obtain ⟨hs, verified, hr, hk⟩ := h
    exact ⟨hs, verified, hr, hk.keep⟩
  | _ => exact h

theorem Good.fair (h : v.Good allow known) : v.Fair allow where
  own := fun j hj => by
    cases v with
    | absent | opens | gone => cases hj
    | judged =>
      cases hj
      exact Judged.Sound.own h
    | admitted | deciding | refused =>
      cases hj
      exact h.1.own
    | decided =>
      cases hj
      exact (Decided.Fair.sound h).own
    | denied | polls | delivers | fetched =>
      cases hj
      exact h.1.sound.own
  decided := fun d hd => by
    subst hd
    exact Decided.Fair.answered h
  handed := fun d hd => by
    cases v with
    | polls | delivers | fetched =>
      cases hd
      exact h.1.answered.mp h.2
    | _ => cases hd
  denied := fun d said dropped hd => by
    subst hd
    obtain ⟨hf, hok, hdrop⟩ := h
    refine ⟨fun he => hok (hf.answered.mpr he), fun hdropped => ?_⟩
    obtain ⟨why, hwhy⟩ := hdrop hdropped
    exact hf.banned why hwhy
  refused := fun j dropped hj => by
    subst hj
    obtain ⟨hs, refused, hr, hdrop⟩ := h
    obtain ⟨hno, hban⟩ := hs.refused hr
    exact ⟨hno, fun hdropped => hban (hdrop hdropped)⟩

end Visit

/-! ## Steps -/

namespace PushHost

variable {ι : Type} [DecidableEq ι] {path : String} {config : HostConfig} {me : NodeId}
  {p p' : PushHost root ι}

/-- What a step does to the visits and to the known principals. -/
inductive Moves (roles : List RoleName) (p p' : PushHost root ι) : PushEvent ι → Prop
  | keeps {e} : p'.visits = p.visits → p'.known = p.known → Moves roles p p' e
  | arrives {e i v w} : p.Goes p' i v w → (∀ known, w.Good roles known) → Moves roles p p' e
  | hears {e i kind j} : p.Goes p' i (.opens kind) (.judged j) → j.Sound → Moves roles p p' e
  | admits {e i j verified} : p.visits i = .judged j → j.result = .ok verified →
    p'.visits = Function.update p.visits i (.admitted j) →
    p'.known = p.known.keep j.caller verified.principal → Moves roles p p' e
  | refuses {e i j refused dropped} : p.Goes p' i (.judged j) (.refused j dropped) →
    j.result = .error refused →
    (dropped = true → (refused.banned || j.state.policy.bansNode j.caller) = true) →
    Moves roles p p' e
  | looks {e i j} : p.Goes p' i (.admitted j) (.deciding j) → Moves roles p p' e
  | decides {i j} again : p.Goes p' i (.deciding j) (.decided (authorizePush roles p.known j again)) →
    Moves roles p p' (.decide i)
  | opens {e i d x} : p.Goes p' i (.decided d) (.polls d) → d.answer = .ok x → Moves roles p p' e
  | denies {e i d said dropped} : p.Goes p' i (.decided d) (.denied d said dropped) →
    ((∃ x, d.answer = .ok x) → said = TOO_MANY_FETCHES ∧ dropped = false) →
    (dropped = true → ∃ why, d.answer = .error (.notAdmitted why)) → Moves roles p p' e
  | hands {e i v w d} : p.Goes p' i v w → v.handed = some d → w.handed = some d →
    Moves roles p p' e

variable {e : PushEvent ι}

theorem moves_of_step (hs : p.step path config allow me e = some p') : Moves allow p p' e := by
  cases e with
  | host e =>
    simp only [step] at hs
    split_ifs at hs
    obtain ⟨host, -, rfl⟩ := Option.map_eq_some_iff.mp hs
    exact .keeps rfl rfl
  | queue op =>
    cases hs
    exact .keeps rfl rfl
  | arrive i kind =>
    simp only [step] at hs
    split at hs
    · rename_i hi
      split_ifs at hs <;> cases hs <;> exact .arrives ⟨hi, rfl, rfl⟩ fun _ => trivial
    · cases hs
  | turn i said =>
    simp only [step] at hs
    split at hs
    · rename_i hi
      cases hs
      exact .arrives ((Goes.of hi).settle _) fun _ => trivial
    · cases hs
  | hello i caller token now keys =>
    simp only [step] at hs
    split at hs
    · rename_i hi _
      cases hs
      exact .hears ⟨hi, rfl, rfl⟩ ⟨⟨_, keys, rfl⟩, rfl⟩
    · cases hs
  | admits i =>
    simp only [step] at hs
    split at hs
    · rename_i j hi
      split at hs
      · rename_i verified hr
        cases hs
        exact .admits hi hr rfl rfl
      · rename_i refused hr
        cases hs
        refine .refuses (((Goes.of hi).settle _).drop _ _) hr fun hdropped => ?_
        exact (Bool.and_eq_true _ _ ▸ hdropped).2
    · cases hs
  | again i =>
    simp only [step] at hs
    split at hs
    · rename_i j hi
      split_ifs at hs
      obtain ⟨host, -, rfl⟩ := Option.map_eq_some_iff.mp hs
      exact .looks ⟨hi, rfl, rfl⟩
    · cases hs
  | decide i =>
    simp only [step] at hs
    split at hs
    · rename_i hi _
      cases hs
      exact .decides _ ⟨hi, rfl, rfl⟩
    · rename_i hi _
      cases hs
      exact .decides _ ⟨hi, rfl, rfl⟩
    · cases hs
  | answer i =>
    simp only [step] at hs
    split at hs
    · rename_i d hi
      split at hs
      · rename_i x hx
        split_ifs at hs
        · cases hs
          exact .denies ((Goes.of hi).settle _) (fun _ => ⟨rfl, rfl⟩) nofun
        · cases hs
          have hg := (Goes.of (w := .polls d) hi).settle .fetch
          exact .opens ⟨hi, hg.visits, hg.known⟩ hx
      · rename_i why hwhy
        cases hs
        refine .denies (((Goes.of hi).settle _).drop _ _) ?_ fun _ => ⟨why, hwhy⟩
        rintro ⟨x, hx⟩
        rw [hwhy] at hx
        cases hx
      · rename_i why hwhy
        cases hs
        refine .denies ((Goes.of hi).settle _) ?_ nofun
        rintro ⟨x, hx⟩
        rw [hwhy] at hx
        cases hx
    · cases hs
  | look i nowMs timedOut =>
    simp only [step] at hs
    split at hs
    · rename_i d hi
      split_ifs at hs
      · cases hs
        exact .hands (d := d) ⟨hi, rfl, rfl⟩ rfl rfl
      · cases hs
        exact .keeps rfl rfl
    · cases hs
  | ack i ids =>
    simp only [step] at hs
    split at hs
    · rename_i d batch hi
      cases hs
      exact .hands (d := d) ⟨hi, rfl, rfl⟩ rfl rfl
    · cases hs
  | leave i =>
    simp only [step] at hs
    split at hs
    · rename_i hi
      cases hs
      exact .arrives ⟨hi, rfl, rfl⟩ fun _ => trivial
    · rename_i hi
      cases hs
      exact .arrives ⟨hi, rfl, rfl⟩ fun _ => trivial
    · cases hs

/-! ## Runs -/

/-- A fetch that is decided is on a node known by its own person's claims. -/
def Own (p : PushHost root ι) (e : PushEvent ι) : Prop :=
  ∀ i j verified entry, e = .decide i → p.visits i = .deciding j → j.result = .ok verified →
    p.known j.caller = some entry → entry.claims = verified.principal.claims

/-- Every visit is good. -/
def Good (allow : List RoleName) (p : PushHost root ι) : Prop :=
  ∀ i, (p.visits i).Good allow p.known

theorem Good.goes (h : p.Good allow) {i : ι} {v w : Visit root} (hg : p.Goes p' i v w)
    (hw : v.Good allow p.known → w.Good allow p.known) : p'.Good allow := by
  intro k
  rw [hg.visits, hg.known]
  by_cases hk : k = i
  · subst hk
    rw [Function.update_self]
    exact hw (hg.was ▸ h k)
  · rw [Function.update_of_ne hk]
    exact h k

theorem Good.step (h : p.Good allow) (ho : p.Own e) (hm : Moves allow p p' e) : p'.Good allow := by
  cases hm with
  | keeps hv hk =>
    intro i
    rw [hv, hk]
    exact h i
  | arrives hg hw => exact h.goes hg fun _ => hw _
  | hears hg hj => exact h.goes hg fun _ => hj
  | @admits _ i j verified hi hr hv hk =>
    intro k
    rw [hv, hk]
    by_cases hki : k = i
    · subst hki
      rw [Function.update_self]
      have hj := h k
      rw [hi] at hj
      exact ⟨hj, verified, hr, Known.outlasts_keep⟩
    · rw [Function.update_of_ne hki]
      exact (h k).keep
  | refuses hg hr hdropped => exact h.goes hg fun hj => ⟨hj, _, hr, hdropped⟩
  | looks hg => exact h.goes hg id
  | @decides i j again hg =>
    refine h.goes hg ?_
    rintro ⟨hs, verified, hr, hk⟩
    exact fair_authorizePush hs hr hk (fun entry he => ho i j verified entry rfl hg.was hr he) again
  | opens hg hx => exact h.goes hg fun hd => ⟨hd, _, hx⟩
  | denies hg hok hdropped => exact h.goes hg fun hd => ⟨hd, hok, hdropped⟩
  | @hands _ i v w d hg hv hw =>
    refine h.goes hg fun hgood => ?_
    cases v with
    | polls | delivers | fetched =>
      cases hv
      cases w with
      | polls | delivers | fetched =>
        cases hw
        exact hgood
      | _ => cases hw
    | _ => cases hv

end PushHost

/-- **A fetch is authorized as the person fetching** in a run whose fetches are each decided while
their node is known by the claims of the person their own token names. -/
theorem own_person {ι : Type} [DecidableEq ι] (path : String) (config : HostConfig)
    (allow : List RoleName) (me : NodeId) (file : PolicyFile) (trust : IdpTrust) (queue : Queue)
    (es : List (PushEvent ι)) (p : PushHost root ι)
    (hrun : run (PushHost.step path config allow me) (.start file trust queue) es = some p)
    (hown : ∀ es₁ e es₂ (p₁ : PushHost root ι), es = es₁ ++ e :: es₂ →
      run (PushHost.step path config allow me) (.start file trust queue) es₁ = some p₁ → p₁.Own e) :
    ∀ i, (p.visits i).Fair allow := by
  have hstart : (PushHost.start file trust queue : PushHost root ι).Good allow := fun _ => trivial
  have hgood := run_invariant_of (P := PushHost.Good allow) (C := PushHost.Own)
    (fun _ _ _ h ho hs => h.step ho (PushHost.moves_of_step hs)) hstart hown hrun
  exact fun i => (hgood i).fair

/-! ## One visit after another -/

namespace PushHost

variable {ι : Type} [DecidableEq ι] {path : String} {config : HostConfig} {me : NodeId}

/-- The steps of a host, taken as they are. -/
theorem run_host {p : PushHost root ι} {es : List (HostEvent (Look ι))} {host : Host root (Look ι)}
    (hplain : ∀ e ∈ es, e.plain = true)
    (hrun : run (Host.step path config me fun _ => .error "") p.host es = some host) :
    run (step path config allow me) p (es.map .host) = some { p with host } := by
  induction es generalizing p with
  | nil =>
    obtain rfl := run_nil.mp hrun
    rfl
  | cons e es ih =>
    obtain ⟨h₁, he, hrest⟩ := run_cons.mp hrun
    refine run_cons.mpr ⟨{ p with host := h₁ }, ?_, ?_⟩
    · simp [step, hplain e List.mem_cons_self, he]
    · exact ih (p := { p with host := h₁ }) (fun e h => hplain e (List.mem_cons_of_mem _ h)) hrest

variable (config me) in
omit [Web] [Jose] in
/-- After `policy` is called, it answers with what is in the file. -/
theorem run_policy {h : Host root (Look ι)} {s : Held root} {l : Look ι} (hl : h.tasks l = .reads)
    (hread : read path root h.file = .ok (some s)) (hmark : h.highWater ≤ s.version) :
    ∃ h', run (Host.step path config me fun _ => .error "") h [.read l, .mark l, .publish l] = some h' ∧
      h'.tasks = Function.update h.tasks l (.holds s) ∧ h'.file = h.file ∧
      h'.highWater = s.version ∧ h'.trust = config.trust s.policy := by
  have hno : ¬s.version < h.highWater := not_lt.mpr hmark
  simp only [run, Host.step, Host.goes, Host.found, Host.weighed, hl, hread, hno, if_false,
    Function.update_self, Option.bind_some, Function.update_idem]
  exact ⟨_, rfl, rfl, rfl, max_eq_right hmark, rfl⟩

/-- A run with one decision meets the condition if that decision does. -/
theorem own_of_once {p₀ p₁ : PushHost root ι} {es fs : List (PushEvent ι)} {i : ι}
    (hes : ∀ k, .decide k ∉ es) (hfs : ∀ k, .decide k ∉ fs)
    (hrun : run (step path config allow me) p₀ es = some p₁) (hown : p₁.Own (.decide i))
    (es₁ : List (PushEvent ι)) (e : PushEvent ι) (es₂ : List (PushEvent ι)) (p : PushHost root ι)
    (heq : es ++ .decide i :: fs = es₁ ++ e :: es₂)
    (hp : run (step path config allow me) p₀ es₁ = some p) : p.Own e := by
  intro k j verified entry he
  subst he
  obtain ⟨a, rfl, ha⟩ | ⟨a, rfl, ha⟩ := List.append_eq_append_iff.mp heq
  · cases a with
    | nil =>
      rw [List.append_nil] at hp
      obtain rfl : p₁ = p := Option.some.inj (hrun.symm.trans hp)
      cases ha
      exact hown _ j verified entry rfl
    | cons b a =>
      rw [List.cons_append, List.cons.injEq] at ha
      exact absurd (by simp [ha.2]) (hfs k)
  · cases a with
    | nil =>
      rw [List.append_nil] at hrun
      obtain rfl : p₁ = p := Option.some.inj (hrun.symm.trans hp)
      cases ha
      exact hown _ j verified entry rfl
    | cons b a =>
      rw [List.cons_append, List.cons.injEq] at ha
      exact absurd (by simp [ha.1]) (hes k)

/-- A host with a policy in its file, that has no fetch of a node open. -/
structure Ready (path : String) (s : Held root) (p : PushHost root ι) : Prop where
  file : read path root p.host.file = .ok (some s)
  mark : p.host.highWater ≤ s.version
  fetching : ∀ node, p.fetching node = 0

variable (allow config me) in
/-- A visit whose token verifies is admitted, and its caller recorded. -/
theorem run_admitted {p : PushHost root ι} {s : Held root} (hp : p.Ready path s) (i : ι)
    (hi : p.visits i = .absent) (hl : p.host.tasks (.visit i) = .idle) (kind : VisitKind)
    {caller : NodeId} {token : IdToken} {now : Int64} {who : Principal}
    {keys : Issuer → Option String → Except Anyhow Jwks} (hfew : p.undecided = 0)
    (hv : KeyFetcher.verify (config.trust s.policy) ⟨caller, token⟩ now keys = .ok who)
    (hc : checkAdmitted s.policy caller who = .ok ()) :
    ∃ p', run (step path config allow me) p ([.arrive i kind] ++
        [.call (.visit i), .read (.visit i), .mark (.visit i), .publish (.visit i)].map .host ++
        [.hello i caller (some token) now keys, .admits i]) = some p' ∧ p'.Ready path s ∧
      p'.visits = Function.update p.visits i (.admitted ⟨kind, s, caller, some token, now,
        some (.ok who), .ok ⟨token, who⟩⟩) ∧
      (∀ l, l ≠ .visit i → p'.host.tasks l = p.host.tasks l) ∧
      p'.known = p.known.keep caller who ∧ (kind = .session → p'.undecided = 0) := by
  have hcall : p.host.step path config me (fun _ => .error "") (.call (.visit i)) =
      some (p.host.goes (.visit i) .reads) := by
    simp only [Host.step, hl]
  obtain ⟨host, hhost, htasks, hfile, hmark, htrust⟩ := run_policy config me
    (h := p.host.goes (.visit i) .reads) (l := .visit i) (Function.update_self ..) hp.file hp.mark
  have hopen : ∃ p₁, p.step path config allow me (.arrive i kind) = some p₁ ∧
      p₁.visits = Function.update p.visits i (.opens kind) ∧ p₁.host = p.host ∧
      p₁.known = p.known ∧ p₁.fetching = p.fetching ∧ (kind = .session → p₁.undecided = 0) := by
    have hno : ¬p.undecided ≥ MAX_PREAUTH_FETCHES := by
      rw [hfew]
      decide
    cases kind with
    | session => exact ⟨p.goes i (.opens .session), by simp [step, hi], rfl, rfl, rfl, rfl, fun _ => hfew⟩
    | fetch =>
      refine ⟨{ p.goes i (.opens .fetch) with undecided := p.undecided + 1 }, ?_, rfl, rfl, rfl, rfl,
        nofun⟩
      simp only [step, hi, hno, if_true, if_false]
  obtain ⟨p₁, hp₁, hvisits, hsame, hknown, hfetching, hundecided⟩ := hopen
  have hpolicy : run (step path config allow me) p₁
      ([.call (.visit i), .read (.visit i), .mark (.visit i), .publish (.visit i)].map .host) =
        some { p₁ with host } :=
    run_host (by simp [HostEvent.plain]) (run_cons.mpr ⟨_, hsame ▸ hcall, hhost⟩)
  have hholds : host.tasks (.visit i) = .holds s := by rw [htasks, Function.update_self]
  have hat : p₁.visits i = .opens kind := by rw [hvisits, Function.update_self]
  refine ⟨{ p₁ with
      host, known := p.known.keep caller who
      visits := Function.update p.visits i (.admitted ⟨kind, s, caller, some token, now,
        some (.ok who), .ok ⟨token, who⟩⟩) }, ?_, ?_, rfl, ?_, rfl, hundecided⟩
  · refine run_append.mpr ⟨_, run_append.mpr ⟨p₁, by simpa using hp₁, hpolicy⟩, ?_⟩
    have hadmits : admitCaller s caller token (.ok who) = .ok ⟨token, who⟩ :=
      admitCaller_eq_ok.mpr ⟨rfl, rfl, hc⟩
    have hadmission : admission s caller (some (token, .ok who)) = .ok ⟨token, who⟩ := hadmits
    simp only [run, step, hat, hholds, htrust, hv, Option.map_some, Option.bind_some, hadmission, goes,
      Function.update_self, Function.update_idem, hvisits, Known.record, hknown]
  · exact ⟨hfile ▸ hp.file, hmark.le, fun node => by rw [hfetching]; exact hp.fetching node⟩
  · intro l hne
    show host.tasks l = _
    rw [htasks, Function.update_of_ne hne]
    exact Function.update_of_ne hne ..

variable (allow path config me) in
theorem step_answer {p : PushHost root ι} {i : ι} {d : Decided root} {x : Option Principal × RoleName}
    (hi : p.visits i = .decided d) (hx : d.answer = .ok x) (hslot : p.fetching d.caller = 0) :
    ∃ p', p.step path config allow me (.answer i) = some p' ∧ p'.visits i = .polls d := by
  have hno : ¬p.fetching d.caller ≥ MAX_FETCHES_PER_NODE := by
    rw [hslot]
    decide
  have hg := (Goes.of (w := .polls d) hi).settle .fetch
  refine ⟨_, by simp only [step, hi, hx]; rw [if_neg hno], ?_⟩
  exact (congrFun hg.visits i).trans (Function.update_self ..)

variable (path config me) in
/-- A fetch whose node is known by someone who may be pushed to is let wait. -/
theorem run_answered {p : PushHost root ι} {s : Held root} {i : ι} {j : Judged root}
    (hi : p.visits i = .deciding j) (hl : p.host.tasks (.push i) = .holds s)
    (hslot : p.fetching j.caller = 0) {entry : Principal} {x : Option Principal × RoleName}
    (hk : p.known.current j.caller j.now = some entry)
    (hd : decidePush s allow j.caller j.now (some entry) = .ok x) :
    ∃ p', run (step path config allow me) p [.decide i, .answer i] = some p' ∧
      p'.visits i = .polls ⟨j, some s, .ok x⟩ := by
  have hdecide : p.step path config allow me (.decide i) =
      some (p.goes i (.decided ⟨j, some s, .ok x⟩)) := by
    simp only [step, hi, hl, authorizePush, hk, hd]
  obtain ⟨p', hp', hpolls⟩ := step_answer allow path config me
    (p := p.goes i (.decided ⟨j, some s, .ok x⟩)) (Function.update_self ..) rfl hslot
  exact ⟨p', run_cons.mpr ⟨_, hdecide, run_cons.mpr ⟨p', hp', rfl⟩⟩, hpolls⟩

variable (allow config me) in
/-- An admitted fetch goes on to `decide_push`. -/
theorem run_again {p : PushHost root ι} {s : Held root} (hp : p.Ready path s) (i : ι)
    {j : Judged root} (hi : p.visits i = .admitted j) (hfetch : j.kind = .fetch)
    (hl : p.host.tasks (.push i) = .idle) :
    ∃ p', run (step path config allow me) p ([.again i] ++
        [.read (.push i), .mark (.push i), .publish (.push i)].map .host) = some p' ∧
      p'.visits i = .deciding j ∧ p'.host.tasks (.push i) = .holds s ∧ p'.known = p.known ∧
      p'.fetching = p.fetching := by
  have hcall : p.host.step path config me (fun _ => .error "") (.call (.push i)) =
      some (p.host.goes (.push i) .reads) := by
    simp only [Host.step, hl]
  obtain ⟨host, hhost, htasks, -, -, -⟩ := run_policy config me
    (h := p.host.goes (.push i) .reads) (l := .push i) (Function.update_self ..) hp.file hp.mark
  have hagain : p.step path config allow me (.again i) =
      some { p.goes i (.deciding j) with host := p.host.goes (.push i) .reads } := by
    simp only [step, hi, hfetch, hcall, if_true, Option.map_some]
  have hpolicy : run (step path config allow me)
      { p.goes i (.deciding j) with host := p.host.goes (.push i) .reads }
      ([.read (.push i), .mark (.push i), .publish (.push i)].map .host) =
        some { p.goes i (.deciding j) with host } :=
    run_host (by simp [HostEvent.plain]) hhost
  refine ⟨_, run_cons.mpr ⟨_, hagain, hpolicy⟩, Function.update_self .., ?_, rfl, rfl⟩
  show host.tasks (.push i) = .holds s
  rw [htasks, Function.update_self]

end PushHost

end

/-! ## Two persons on one node -/

section Sample

attribute [local instance] Crypto.plain Jose.plain Web.plain

theorem isName_analyst : isRoleName "analyst" = true := by decide

def analyst : RoleName := ⟨"analyst", isName_analyst⟩

/-- Alice is an analyst, and whoever the issuer verified is staff. -/
def inboxPolicy : Policy :=
  { samplePolicy 1 [] with
    roles := ⟨[(analyst, [⟨"idp", some (.exact "alice@x"), none, none⟩]), (sampleRole, [.new "idp"])],
      by decide⟩
    issuers := .single "idp" ⟨"cli", ["cli"]⟩ }

theorem read_inboxPolicy : ∃ (file : List Char) (held : Held (nodeId sampleRoot)),
    read "policy.json" (nodeId sampleRoot) (.text file) = .ok (some held) ∧
      held.policy = inboxPolicy ∧ held.signed.head.head.notAfter = 10000 := by
  have hparsed : inboxPolicy.Parsed := by
    have hparse : EmailPattern.parse "alice@x" = .ok (.exact "alice@x") := by decide
    simp [Policy.Parsed, inboxPolicy, Matcher.Parsed, Matcher.new]
    exact ⟨_, hparse⟩
  have hv : (inboxPolicy.signed sampleRoot none).verify (nodeId sampleRoot) = .ok () :=
    Policy.verify_signed_none rfl (by decide)
  obtain ⟨held, hread, hs⟩ :=
    read_policyText "policy.json" (c := ⟨_, Policy.parsed_signed hparsed⟩) hv
  refine ⟨_, held, hread, ?_, by rw [hs]; rfl⟩
  have htyped : (inboxPolicy.signed sampleRoot none).toPolicy = .ok held.policy := by
    have := held.typed
    rwa [hs] at this
  rw [Policy.toPolicy_signed rfl] at htyped
  exact (Except.ok.inj htyped).symm

/-- The claims of a person with a verified email. -/
def personClaims (email : String) (exp : Int64) : Claims :=
  [("iss", toJson "idp"), ("aud", toJson "cli"), ("exp", .num exp.toInt),
    ("nonce", toJson (OidcNonce.forNode (Bytes.fill 32 4))), ("sub", toJson email),
    ("email", toJson email), ("email_verified", .bool true)]

def personOf (email : String) (exp : Int64) : Principal := ⟨"idp", email, some email, none, [], exp⟩

theorem verify_personClaims {email : String} (now exp : Int64) (hn : now.toInt ≤ exp.toInt + 60)
    (hv : Claims.ofJson (.obj (personClaims email exp)) = some (personClaims email exp)) :
    KeyFetcher.verify ⟨[("idp", ["cli"])]⟩ ⟨sampleNode 4, sampleToken (personClaims email exp)⟩ now
      (fun _ _ => .ok ⟨[sampleJwk]⟩) = .ok (personOf email exp) := by
  refine verify_eq_ok.mpr ⟨_, _, reads_sampleToken hv, rfl, valid_signed ?_ rfl hn, ?_⟩
  · intro name hname
    simp only [List.mem_cons, List.not_mem_nil, or_false] at hname
    rcases hname with rfl | rfl | rfl | rfl <;> rfl
  · have hverified : (personClaims email exp).get "email_verified" = some (.bool true) := rfl
    have hemail : (personClaims email exp).get "email" = some (.str email.toList) := rfl
    refine ⟨rfl, rfl, fun e => ?_, fun org => ?_, rfl⟩
    · rw [show (sampleJws (personClaims email exp)).payload = personClaims email exp from rfl,
        hverified, hemail]
      simp [personOf, String.toList_inj]
    · simp [personOf, GOOGLE_ISSUER]

/-- Where Alice is known, the node may be pushed to, whoever fetches. -/
theorem decide_alice {s : Held (nodeId sampleRoot)} (hs : s.policy = inboxPolicy)
    (hn : s.signed.head.head.notAfter = 10000) (exp : Int64) : ∃ x,
    decidePush s [analyst] (sampleNode 4) 50 (some (personOf "alice@x" exp)) = .ok x := by
  refine decidePush_eq_ok.mpr ⟨by rw [hn]; decide, ?_, analyst, List.mem_singleton_self _, ?_⟩
  · rw [← checkAdmitted_claims, hs]
    exact (by decide : checkAdmitted inboxPolicy (sampleNode 4) (personOf "alice@x" 0) = .ok ())
  · rw [← roleAdmits_claims, hs]
    exact (by decide : inboxPolicy.roleAdmits analyst (some (personOf "alice@x" 0)) = true)

/-- Bob, whose sign-in is the shorter one, leaves the node known as Alice's. -/
theorem current_sample {known : Known} (h : known = fun _ => none) :
    (known.keep (sampleNode 4) (personOf "alice@x" 200)).current (sampleNode 4) 50 =
        some (personOf "alice@x" 200) ∧
      ((known.keep (sampleNode 4) (personOf "alice@x" 200)).keep (sampleNode 4)
        (personOf "bob@x" 100)).current (sampleNode 4) 50 = some (personOf "alice@x" 200) := by
  subst h
  decide

/-- Alice, whose sign-in is the longer one, calls; Bob, who is staff only, fetches from the same
node, and is handed what is queued. -/
theorem not_own_person : ¬∀ (path : String) (config : HostConfig) (allow : List RoleName)
    (me : NodeId) (file : PolicyFile) (trust : IdpTrust) (queue : Queue) (es : List (PushEvent Bool))
    (p : PushHost (nodeId sampleRoot) Bool),
    run (PushHost.step path config allow me) (.start file trust queue) es = some p →
    ∀ i, (p.visits i).Fair allow := by
  intro hall
  obtain ⟨file, s, hread, hs, hn⟩ := read_inboxPolicy
  have htrust : HostConfig.trust ⟨none, ∅⟩ s.policy = ⟨[("idp", ["cli"])]⟩ := by
    rw [hs]
    rfl
  have halice : checkAdmitted s.policy (sampleNode 4) (personOf "alice@x" 200) = .ok () := by
    rw [hs]
    decide
  have hbob : checkAdmitted s.policy (sampleNode 4) (personOf "bob@x" 100) = .ok () := by
    rw [hs]
    decide
  have hready : (PushHost.start (.text file) ⟨[]⟩ ⟨∅⟩ : PushHost (nodeId sampleRoot) Bool).Ready
      "policy.json" s := ⟨hread, UInt64.zero_le, fun _ => rfl⟩
  -- the call
  obtain ⟨p₁, hrun₁, hready₁, hvisits₁, htasks₁, hknown₁, hfew₁⟩ :=
    PushHost.run_admitted [analyst] ⟨none, ∅⟩ (sampleNode 2) hready false rfl rfl .session rfl
      (htrust ▸ verify_personClaims 50 200 (by decide) rfl) halice
  -- the fetch
  obtain ⟨p₂, hrun₂, hready₂, hvisits₂, htasks₂, hknown₂, -⟩ :=
    PushHost.run_admitted [analyst] ⟨none, ∅⟩ (sampleNode 2) hready₁ true (by rw [hvisits₁]; rfl)
      (htasks₁ (.visit true) (by decide)) .fetch (hfew₁ rfl)
      (htrust ▸ verify_personClaims 50 100 (by decide) rfl) hbob
  obtain ⟨p₃, hrun₃, hvisits₃, hholds₃, hknown₃, hfetching₃⟩ :=
    PushHost.run_again [analyst] ⟨none, ∅⟩ (sampleNode 2) hready₂ true
      (by rw [hvisits₂]; exact Function.update_self ..) rfl
      ((htasks₂ (.push true) (by decide)).trans (htasks₁ (.push true) (by decide)))
  have hknown : p₃.known.current (sampleNode 4) 50 = some (personOf "alice@x" 200) := by
    rw [hknown₃, hknown₂, hknown₁]
    exact (current_sample rfl).2
  obtain ⟨x, hx⟩ := decide_alice hs hn 200
  obtain ⟨p₄, hrun₄, hvisits₄⟩ := PushHost.run_answered "policy.json" ⟨none, ∅⟩
    (sampleNode 2) hvisits₃ hholds₃ (by rw [hfetching₃]; exact hready₂.fetching _) hknown hx
  have hrun := run_append.mpr ⟨p₁, hrun₁, run_append.mpr ⟨p₂, hrun₂, run_append.mpr ⟨p₃, hrun₃, hrun₄⟩⟩⟩
  obtain ⟨own, state, hown, -, hagain, -, -, r, hr, hrole⟩ :=
    (hall _ _ _ _ _ _ _ _ p₄ hrun true).handed _ (by rw [hvisits₄]; rfl)
  obtain rfl : personOf "bob@x" 100 = own := Except.ok.inj (Option.some.inj hown)
  obtain rfl : s = state := Option.some.inj hagain
  obtain rfl := List.mem_singleton.mp hr
  rw [hs] at hrole
  exact absurd hrole (by decide)

/-- Alice alone fetches, and is handed what is queued as herself. -/
theorem own_person_sample : ∃ (p : PushHost (nodeId sampleRoot) Bool) (d : Decided (nodeId sampleRoot)),
    p.visits true = .polls d ∧ d.Entitled [analyst] := by
  obtain ⟨file, s, hread, hs, hn⟩ := read_inboxPolicy
  have htrust : HostConfig.trust ⟨none, ∅⟩ s.policy = ⟨[("idp", ["cli"])]⟩ := by
    rw [hs]
    rfl
  have halice : checkAdmitted s.policy (sampleNode 4) (personOf "alice@x" 200) = .ok () := by
    rw [hs]
    decide
  have hready : (PushHost.start (.text file) ⟨[]⟩ ⟨∅⟩ : PushHost (nodeId sampleRoot) Bool).Ready
      "policy.json" s := ⟨hread, UInt64.zero_le, fun _ => rfl⟩
  obtain ⟨p₁, hrun₁, hready₁, hvisits₁, htasks₁, hknown₁, -⟩ :=
    PushHost.run_admitted [analyst] ⟨none, ∅⟩ (sampleNode 2) hready true rfl rfl .fetch rfl
      (htrust ▸ verify_personClaims 50 200 (by decide) rfl) halice
  obtain ⟨p₂, hrun₂, hvisits₂, hholds₂, hknown₂, hfetching₂⟩ :=
    PushHost.run_again [analyst] ⟨none, ∅⟩ (sampleNode 2) hready₁ true
      (by rw [hvisits₁]; exact Function.update_self ..) rfl
      (htasks₁ (.push true) (by decide))
  have hknown : p₂.known.current (sampleNode 4) 50 = some (personOf "alice@x" 200) := by
    rw [hknown₂, hknown₁]
    exact (current_sample rfl).1
  obtain ⟨x, hx⟩ := decide_alice hs hn 200
  obtain ⟨p₃, hrun₃, hvisits₃⟩ := PushHost.run_answered "policy.json" ⟨none, ∅⟩
    (sampleNode 2) hvisits₂ hholds₂ (by rw [hfetching₂]; exact hready₁.fetching _) hknown hx
  have hbefore := run_append.mpr ⟨p₁, hrun₁, hrun₂⟩
  refine ⟨p₃, _, hvisits₃, ?_⟩
  refine (own_person _ _ _ _ _ _ _ _ p₃ (run_append.mpr ⟨p₂, hbefore, hrun₃⟩) ?_ true).handed _
    (by rw [hvisits₃]; rfl)
  refine PushHost.own_of_once ?_ ?_ hbefore fun i j verified entry hi hj hr hk => ?_
  · intro k hmem
    simp only [List.map_cons, List.map_nil, List.cons_append, List.nil_append, List.mem_cons,
      reduceCtorEq, List.not_mem_nil, or_false] at hmem
  · intro k hmem
    simp only [List.mem_singleton, reduceCtorEq] at hmem
  · cases hi
    obtain rfl := Visit.deciding.inj (hvisits₂.symm.trans hj)
    have hkept : p₂.known (sampleNode 4) = some (personOf "alice@x" 200) := by
      rw [hknown₂, hknown₁]
      exact Known.keep_self rfl
    rw [Option.some.inj (hk.symm.trans hkept), ← Except.ok.inj hr]

end Sample

end Wires
