import Wires.Impl.Serve
import Wires.Proof.Deciders
import Wires.Proof.Directory

/-!
# What a directory's peers are sent

Who a peer is is decided at its `hello`. `Directory.serves` says what it was,
under which of the policies that the directory held since then, when it is sent
something: whoever gets the whole policy was named, whoever gets an entry of a
view is admitted by the very policy the view is cut from, and whoever was not
admitted hears the proof, a refusal or what became of its publish. Between the
`hello` and what is sent, newer policies may be announced (`Since`, `Succeeds`):
the whole policy goes to a node that it no longer names (`not_only_refused`).
-/

namespace Wires

namespace Directory

section

variable [Crypto] {root : NodeId}

/-! ## Views -/

/-- An entry of a view is listed for someone the policy admits. -/
theorem admitted_of_mem_viewFor {held : Held root} {node : NodeId} {principal : Option Principal}
    {query : Option String} {e : SignedEntry}
    (he : e ∈ (held.signed.viewFor node principal query).entries) :
    ∃ p, principal = some p ∧ checkAdmitted held.policy node p = .ok () := by
  obtain ⟨hn, hp, hmem, -, r, hr, hadmits⟩ := (mem_viewFor held.typed).mp he
  cases principal with
  | none =>
    rw [Policy.roleAdmits] at hadmits
    cases hrole : held.policy.roles.get? r <;> simp [admits, hrole] at hadmits
  | some p =>
    have hview : ∃ e' ∈ (held.signed.viewFor node (some p) none).entries, e'.name = e.name :=
      ⟨e, (mem_viewFor held.typed).mpr ⟨hn, hp, hmem, Option.all_none, r, hr, hadmits⟩, rfl⟩
    obtain ⟨role, hrole⟩ := isOk_iff.mp ((mem_viewFor_iff_authorize held.typed).mp hview)
    exact ⟨p, rfl, checkAdmitted_of_authorize hrole⟩

/-- A view cut from a policy for a node and who it acts for: all of it, what matches a query, or
one service's entry. -/
def CutFrom (s : SignedPolicy) (node : NodeId) (principal : Option Principal) (v : View) : Prop :=
  (∃ query, v = s.viewFor node principal query) ∨
    ∃ service : ServiceName, v = { s.viewFor node principal none with
      entries := (s.viewFor node principal none).entries.filter fun e => e.name = service }

theorem CutFrom.admitted {held : Held root} {node : NodeId} {principal : Option Principal}
    {v : View} (h : CutFrom held.signed node principal v) (hv : v.entries ≠ []) :
    ∃ p, principal = some p ∧ checkAdmitted held.policy node p = .ok () := by
  obtain ⟨e, he⟩ := List.exists_mem_of_ne_nil _ hv
  rcases h with ⟨query, rfl⟩ | ⟨service, rfl⟩
  · exact admitted_of_mem_viewFor he
  · exact admitted_of_mem_viewFor (List.mem_filter.mp he).1

/-! ## Answers -/

theorem currentWithFresh_eq_ok {current : Option (Current root)} {now : Int64} {c : Current root}
    {f : Fresh} (h : currentWithFresh current now = .ok (c, f)) :
    current = some c ∧ c.held.checkFresh now = .ok () ∧ c.fresh = some f := by
  unfold currentWithFresh at h
  split at h
  · cases h
  · split at h
    · cases h
    · rename_i hfresh
      split at h
      · cases h
      · rename_i hf
        cases h
        exact ⟨rfl, hfresh, hf⟩

/-- An answer that holds something of the policy. -/
def Answer.Tells : Answer → Prop
  | .current _ | .policy _ _ | .view _ _ => True
  | _ => False

/-- What `answer` answers when it does not refuse. -/
theorem answer_tells {current : Option (Current root)} {peer : Peer} {request : Request}
    {now : Int64} {a : Answer} (h : answer current peer request now = a) :
    (∃ reason, a = .denied reason) ∨ a.Tells ∧ peer.admitted = true ∧
      ∃ c f, current = some c ∧ c.held.checkFresh now = .ok () ∧
        (a = .current f ∨ (peer.named = true ∧ a = .policy c.held.signed f) ∨
          ∃ v, a = .view v f ∧ CutFrom c.held.signed peer.node peer.principal v) := by
  subst h
  unfold answer
  split
  · exact .inl ⟨_, rfl⟩
  · rename_i hadm
    have hadm : peer.admitted = true := by simpa using hadm
    split
    · exact .inl ⟨_, rfl⟩
    · rename_i c f hc
      obtain ⟨hcur, hfresh, -⟩ := currentWithFresh_eq_ok hc
      split
      · split_ifs with hnamed hhave
        · exact .inl ⟨_, rfl⟩
        · exact .inr ⟨trivial, hadm, c, f, hcur, hfresh, .inl rfl⟩
        · exact .inr ⟨trivial, hadm, c, f, hcur, hfresh, .inr (.inl ⟨by simpa using hnamed, rfl⟩)⟩
      · exact .inr ⟨trivial, hadm, c, f, hcur, hfresh,
          .inr (.inr ⟨_, rfl, .inl ⟨_, rfl⟩⟩)⟩
      · exact .inr ⟨trivial, hadm, c, f, hcur, hfresh,
          .inr (.inr ⟨_, rfl, .inr ⟨_, rfl⟩⟩)⟩
      · exact .inl ⟨_, rfl⟩
      · exact .inl ⟨_, rfl⟩
      · exact .inl ⟨_, rfl⟩
      · exact .inl ⟨_, rfl⟩

/-! ## Steps -/

section

variable {ι κ : Type}

/-- Whether an event is the `hello` of connection `k`: what `admit` reads, it reads from then on. -/
def ServeEvent.Hello (k : κ) : ServeEvent ι κ → Prop
  | .opening j frame _ _ => j = k ∧ ∃ token, frame = .ok (.hello token)
  | .subOpening j frame _ => j = k ∧ ∃ token, frame = .ok (.hello token)
  | _ => False

namespace Served

/-- What a step makes of the connection it is of. -/
inductive Acts (cap : Nat) (s : Served root ι κ) (c : Conn root ι) (k : κ) :
    ServeEvent ι κ → Conn root ι → Prop
  | opening {frame host now proven} : c.stage = .opens ∨ c.stage = .proven →
    Acts cap s c k (.opening k frame host now) (c.opening s.node.current host now proven frame)
  | subOpening {frame token now} : c.stage = .opens →
    Acts cap s c k (.subOpening k frame now) (c.admitting s.node.current token now)
  | subRefused {frame now} : c.stage = .opens →
    Acts cap s c k (.subOpening k frame now) (c.refused NOT_ADMITTED)
  | named {token held} : c.stage = .admits token held →
    Acts cap s c k (.named k) (c.goes (.verifies token held (holdsWhole s.node.current c.node)))
  | verified {token held named verdict slot} : c.stage = .verifies token held named →
    Acts cap s c k (.verified k verdict slot)
      (c.known s.node.current (admitPeer c.node token held named verdict) slot)
  | request {peer r now} : c.stage = .asks peer →
    Acts cap s c k (.request k r now) (c.requested s.node.current peer now r)
  | crowded : Acts cap s c k (.crowded k) (c.refused BUSY)
  | replies {i a} : s.node.calls i = some (.answered a) →
    Acts cap s c k (.replies k) (c.hears (.answer a) .done)
  | subscribe {peer r slot} : c.stage = .asks peer →
    Acts cap s c k (.subscribe k r slot) (c.subscribed cap peer slot r)
  | wakes {cur sent} : c.stage = .follows sent → s.node.current = some cur →
    Acts cap s c k (.wakes k) (c.goes (.weighs cur sent))
  | sends {cur sent} : c.stage = .weighs cur sent →
    Acts cap s c k (.sends k) (c.turn s.node.current cur sent)
  | closes : Acts cap s c k (.closes k) (c.goes .done)

section

variable [DecidableEq ι] [DecidableEq κ]

/-- What a step does. -/
inductive Moves (path : String) (me : NodeIdentity) (cap : Nat) (s : Served root ι κ) :
    ServeEvent ι κ → Served root ι κ → Prop
  | restarts {n} : s.node.step path me .opens = some n →
    Moves path me cap s (.node .opens) ⟨n, fun _ => none⟩
  | node {e n} : e ≠ .opens → s.node.step path me e = some n →
    Moves path me cap s (.node e) { s with node := n }
  | connects {k node sub} : s.conns k = none →
    Moves path me cap s (.connect k node sub) (s.goes k ⟨node, sub, .opens, []⟩)
  | publishes {k c peer i head now n} : s.conns k = some c → c.stage = .asks peer →
    s.node.step path me (.publish i head now) = some n →
    Moves path me cap s (.publish k i head now) { s.goes k (c.goes (.publishes peer i)) with node := n }
  | sleeps {k} : Moves path me cap s (.wakes k) s
  | acts {e k c d} : s.conns k = some c → Acts cap s c k e d → Moves path me cap s e (s.goes k d)

variable {path : String} {me : NodeIdentity} {cap : Nat} {s t : Served root ι κ}
  {e : ServeEvent ι κ}

theorem moves_of_step (h : s.step path me cap e = some t) : Moves path me cap s e t := by
  cases e with
  | node e =>
    by_cases he : e = .opens
    · subst he
      obtain ⟨n, hn, rfl⟩ := Option.map_eq_some_iff.mp h
      exact .restarts hn
    · have h' : (s.node.step path me e).map (fun node => { s with node }) = some t := by
        simpa only [step] using h
      obtain ⟨n, hn, rfl⟩ := Option.map_eq_some_iff.mp h'
      exact .node he hn
  | connect k node sub =>
    simp only [step] at h
    split at h
    · rename_i hk
      cases h
      exact .connects hk
    · cases h
  | opening k frame host now =>
    simp only [step] at h
    split at h
    · rename_i hk
      cases h
      exact .acts hk (.opening (.inl rfl))
    · rename_i hk
      cases h
      exact .acts hk (.opening (.inr rfl))
    · cases h
  | subOpening k frame now =>
    simp only [step] at h
    split at h
    · rename_i hk
      cases h
      split
      · exact .acts hk (.subOpening rfl)
      · exact .acts hk (.subRefused rfl)
    · cases h
  | named k =>
    simp only [step] at h
    split at h
    · rename_i hk
      cases h
      exact .acts hk (.named rfl)
    · cases h
  | verified k verdict slot =>
    simp only [step] at h
    split at h
    · rename_i hk
      cases h
      exact .acts hk (.verified rfl)
    · cases h
  | request k r now =>
    simp only [step] at h
    split at h
    · rename_i hk
      split at h
      · cases h
      · cases h
        exact .acts hk (.request rfl)
    · cases h
  | publish k i head now =>
    simp only [step] at h
    split at h
    · rename_i hk
      obtain ⟨n, hn, h⟩ := Option.bind_eq_some_iff.mp h
      cases h
      exact .publishes hk rfl hn
    · cases h
  | crowded k =>
    simp only [step] at h
    split at h
    · rename_i hk
      split at h
      · split_ifs at h
        cases h
        exact .acts hk .crowded
      · cases h
    · cases h
  | replies k =>
    simp only [step] at h
    split at h
    · rename_i hk
      split at h
      · rename_i hi
        cases h
        exact .acts hk (.replies hi)
      · cases h
    · cases h
  | subscribe k r slot =>
    simp only [step] at h
    split at h
    · rename_i hk
      cases h
      exact .acts hk (.subscribe rfl)
    · cases h
  | wakes k =>
    simp only [step] at h
    split at h
    · rename_i hk
      split at h
      · rename_i hcur
        cases h
        exact .acts hk (.wakes rfl hcur)
      · cases h
        exact .sleeps
    · cases h
  | sends k =>
    simp only [step] at h
    split at h
    · rename_i hk
      cases h
      exact .acts hk (.sends rfl)
    · cases h
  | closes k =>
    simp only [step] at h
    split at h
    · rename_i hk
      cases h
      exact .acts hk .closes
    · cases h

omit [DecidableEq ι] [DecidableEq κ] in
/-- A `hello` is read by the connection it is of, before anything is known of the peer. -/
theorem Acts.hello {k j : κ} {c d : Conn root ι} (ha : Acts cap s c k e d) (he : e.Hello j) :
    j = k ∧ (c.stage = .opens ∨ c.stage = .proven) := by
  cases ha with
  | opening hs => exact ⟨he.1.symm, hs⟩
  | subOpening hs | subRefused hs => exact ⟨he.1.symm, .inl hs⟩
  | named _ | verified _ | request _ | crowded | replies _ | subscribe _ | wakes _ _ | sends _
  | closes => exact he.elim

omit [DecidableEq ι] in
theorem conns_goes {k j : κ} {c : Conn root ι} :
    (s.goes k c).conns j = if j = k then some c else s.conns j :=
  Function.update_apply ..

end

end Served

/-! ## What one action sends -/

/-- What any peer may hear: the proof, a refusal, and what became of its publish. -/
def Heard.Plain : Heard → Prop
  | .answer (.proof _) | .answer (.denied _) | .answer (.published _ _) | .frame (.denied _) => True
  | _ => False

omit [Crypto] in
theorem Answer.OfPublish.plain {a : Answer} (h : a.OfPublish) : (Heard.answer a).Plain := by
  rcases h with ⟨v, hash, rfl⟩ | ⟨reason, rfl⟩
  · trivial
  · trivial

section

variable (P : Current root → Prop) (V : Principal → Prop)

/-- What a connection's stage rests on: `P` is what was held since its `hello`, and `V` who its token
was verified as. -/
def Knows (node : NodeId) : ConnStage root ι → Prop
  | .admits _ held => ∀ c, held = some c → P c
  | .verifies _ held named =>
    (∀ c, held = some c → P c) ∧ (named = true → ∃ c, P c ∧ names c.held node = true)
  | .asks peer => peer.node = node ∧ (peer.named = true → ∃ c, P c ∧ names c.held node = true) ∧
    ∀ p, peer.principal = some p → V p ∧ ∃ c, P c ∧ checkAdmitted c.held.policy node p = .ok ()
  | .weighs cur _ => P cur
  | _ => True

/-- What is so when the event `e` sends `x` to a node, with `current` announced. -/
structure Sent (current : Option (Current root)) (e : ServeEvent ι κ) (node : NodeId) (x : Heard) :
    Prop where
  /-- The whole policy is answered to a node that a policy held since its `hello` named: what is sent
  is what is announced. -/
  whole : ∀ p f, x = .answer (.policy p f) → ∃ seen cur, P seen ∧ names seen.held node = true ∧
    current = some cur ∧ p = cur.held.signed
  /-- A subscriber gets the whole policy if that does not ban it and what is announced names it. -/
  wholeFrame : ∀ p f, x = .frame (.policy p f) → ∃ seen cur, P seen ∧ p = seen.held.signed ∧
    seen.held.policy.bansNode node = false ∧ current = some cur ∧ names cur.held node = true
  /-- A view is cut from what is announced, for the node and who its token was verified as; it
  lists something only if that policy admits them. -/
  view : ∀ v f, x = .answer (.view v f) → ∃ cur principal, current = some cur ∧
    CutFrom cur.held.signed node principal v ∧
    (∀ p, principal = some p → V p ∧ ∃ seen, P seen ∧
      checkAdmitted seen.held.policy node p = .ok ()) ∧
    (v.entries ≠ [] → ∃ p, principal = some p ∧ checkAdmitted cur.held.policy node p = .ok ())
  /-- An answer that tells of the policy is given before the policy expires. -/
  unexpired : ∀ a, x = .answer a → a.Tells → ∃ cur k r now, current = some cur ∧
    e = .request k r now ∧ cur.held.checkFresh now = .ok ()
  /-- A frame's policy had not expired when the word sent with it was signed. -/
  unexpiredFrame : ∀ p f, x = .frame (.policy p f) → p.head.checkFresh f.at_ = .ok ()
  /-- A peer that hears more than any may was named, or acts for someone admitted. -/
  stranger : x.Plain ∨ ∃ seen, P seen ∧ (names seen.held node = true ∨
    ∃ p, V p ∧ checkAdmitted seen.held.policy node p = .ok ())

variable {P V} in
theorem Sent.mono {Q : Current root → Prop} {current : Option (Current root)} {e : ServeEvent ι κ}
    {node : NodeId} {x : Heard} (h : Sent P V current e node x) (hP : ∀ c, P c → Q c) :
    Sent Q V current e node x where
  whole p f hx := by
    obtain ⟨seen, cur, hseen, hsent⟩ := h.whole p f hx
    exact ⟨seen, cur, hP seen hseen, hsent⟩
  wholeFrame p f hx := by
    obtain ⟨seen, cur, hseen, hsent⟩ := h.wholeFrame p f hx
    exact ⟨seen, cur, hP seen hseen, hsent⟩
  view v f hx := by
    obtain ⟨cur, principal, hcur, hcut, hadm, hlists⟩ := h.view v f hx
    refine ⟨cur, principal, hcur, hcut, fun p hp => ?_, hlists⟩
    obtain ⟨hv, seen, hseen, hok⟩ := hadm p hp
    exact ⟨hv, seen, hP seen hseen, hok⟩
  unexpired := h.unexpired
  unexpiredFrame := h.unexpiredFrame
  stranger := h.stranger.imp_right fun ⟨seen, hseen, hok⟩ => ⟨seen, hP seen hseen, hok⟩

/-- What an action does: the connection comes to a stage, and is sent one thing at most. -/
inductive Does (current : Option (Current root)) (e : ServeEvent ι κ) (c : Conn root ι) :
    Conn root ι → Prop
  | goes {stage} : Knows P V c.node stage → Does current e c (c.goes stage)
  | hears {x stage} : Knows P V c.node stage → Sent P V current e c.node x →
    Does current e c (c.hears x stage)

end

variable {P : Current root → Prop} {V : Principal → Prop} {current : Option (Current root)}
  {e : ServeEvent ι κ} {node : NodeId} {x : Heard} {c : Conn root ι}

theorem Sent.of_plain (h : x.Plain) : Sent P V current e node x where
  whole p f hx := by
    subst hx
    exact h.elim
  wholeFrame p f hx := by
    subst hx
    exact h.elim
  view v f hx := by
    subst hx
    exact h.elim
  unexpired a hx ha := by
    subst hx
    cases a with
    | current _ | policy _ _ | view _ _ => exact h.elim
    | proof _ | published _ _ | denied _ => exact ha.elim
  unexpiredFrame p f hx := by
    subst hx
    exact h.elim
  stranger := .inl h

theorem does_refused {reason : String} : Does P V current e c (c.refused reason) := by
  unfold Conn.refused
  refine .hears trivial (.of_plain ?_)
  split
  · trivial
  · trivial

theorem does_admitting {token : Option IdToken} {now : Int64}
    (hP : ∀ cur, current = some cur → P cur) :
    Does P V current e c (c.admitting current token now) := by
  refine .goes fun cur hcur => ?_
  exact hP cur (Option.filter_eq_some_iff.mp hcur).1

theorem does_opening {frame : Except Anyhow Request} {host : List Fresh} {now : Int64}
    {proven : Bool} (hP : ∀ cur, current = some cur → P cur) :
    Does P V current e c (c.opening current host now proven frame) := by
  unfold Conn.opening
  split
  · exact does_admitting hP
  · split
    · exact does_refused
    · split
      · exact .hears trivial (.of_plain trivial)
      · exact does_refused
  · exact does_refused

theorem does_known {peer : Peer} {slot : Bool} (h : Knows P V c.node (.asks peer : ConnStage root ι)) :
    Does P V current e c (c.known current peer slot) := by
  unfold Conn.known
  split_ifs
  · exact .goes h
  · exact does_refused
  · exact does_refused
  · exact does_refused
  · exact .goes h

theorem knows_admitPeer {token : Option IdToken} {held : Option (Current root)} {named : Bool}
    {verdict : Except VerifyError Principal}
    (h : Knows P V node (.verifies token held named : ConnStage root ι))
    (hV : ∀ p, verdict = .ok p → V p) :
    Knows P V node (.asks (admitPeer node token held named verdict) : ConnStage root ι) := by
  refine ⟨rfl, h.2, fun p hp => ?_⟩
  simp only [admitPeer] at hp
  split at hp
  · rename_i cur _ p'
    split_ifs at hp with hadm
    cases hp
    obtain ⟨u, hu⟩ := isOk_iff.mp hadm
    exact ⟨hV p rfl, cur, h.1 cur rfl, hu⟩
  · cases hp

theorem Knows.mono {Q : Current root → Prop} {W : Principal → Prop} {stage : ConnStage root ι}
    (h : Knows P V node stage) (hP : ∀ c, P c → Q c)
    (hV : ∀ p, V p → W p) : Knows Q W node stage := by
  have hnames : (∃ c, P c ∧ names c.held node = true) → ∃ c, Q c ∧ names c.held node = true :=
    fun ⟨c, hc, hn⟩ => ⟨c, hP c hc, hn⟩
  unfold Knows at h ⊢
  split
  · exact fun c hc => hP c (h c hc)
  · exact ⟨fun c hc => hP c (h.1 c hc), fun hn => hnames (h.2 hn)⟩
  · refine ⟨h.1, fun hn => hnames (h.2.1 hn), fun p hp => ?_⟩
    obtain ⟨hv, c, hc, hadm⟩ := h.2.2 p hp
    exact ⟨hV p hv, c, hP c hc, hadm⟩
  · exact hP _ h
  · trivial

/-- Whoever is admitted is named, or acts for someone admitted. -/
theorem Knows.admitted {peer : Peer} (h : Knows P V node (.asks peer : ConnStage root ι))
    (hp : peer.admitted = true) : ∃ seen, P seen ∧ (names seen.held node = true ∨
      ∃ p, V p ∧ checkAdmitted seen.held.policy node p = .ok ()) := by
  rw [Peer.admitted, Bool.or_eq_true] at hp
  rcases hp with hn | hp
  · obtain ⟨seen, hseen, hn⟩ := h.2.1 hn
    exact ⟨seen, hseen, .inl hn⟩
  · obtain ⟨p, hp⟩ := Option.isSome_iff_exists.mp hp
    obtain ⟨hV, seen, hseen, hadm⟩ := h.2.2 p hp
    exact ⟨seen, hseen, .inr ⟨p, hV, hadm⟩⟩

theorem sent_answer {peer : Peer} {k : κ} {r : Request} {now : Int64}
    (h : Knows P V node (.asks peer : ConnStage root ι)) :
    Sent P V current (.request k r now : ServeEvent ι κ) node
      (.answer (answer current peer r now)) := by
  rcases answer_tells (a := answer current peer r now) rfl with ⟨reason, ha⟩ | ⟨-, hadm, cur, f, hcur, hfresh, ha⟩
  · rw [ha]
    exact .of_plain trivial
  · generalize answer current peer r now = a at ha ⊢
    refine ⟨fun p f' hx => ?_, nofun, fun v f' hx => ?_, fun a' _ _ => ⟨cur, k, r, now, hcur, rfl, hfresh⟩,
      nofun, .inr (h.admitted hadm)⟩
    · rcases ha with rfl | ⟨hn, rfl⟩ | ⟨v, rfl, -⟩
      · cases hx
      · cases hx
        obtain ⟨seen, hseen, hnames⟩ := h.2.1 hn
        exact ⟨seen, cur, hseen, hnames, hcur, rfl⟩
      · cases hx
    · rcases ha with rfl | ⟨-, rfl⟩ | ⟨v', rfl, hcut⟩
      · cases hx
      · cases hx
      · cases hx
        rw [h.1] at hcut
        exact ⟨cur, peer.principal, hcur, hcut, h.2.2, hcut.admitted⟩

theorem does_requested {peer : Peer} {k : κ} {r : Request} {now : Int64}
    (h : Knows P V c.node (.asks peer : ConnStage root ι)) :
    Does P V current (.request k r now : ServeEvent ι κ) c (c.requested current peer now r) := by
  unfold Conn.requested
  split_ifs
  · exact .hears trivial (sent_answer h)
  · exact does_refused
  · exact does_refused

theorem does_subscribed {cap : Nat} {peer : Peer} {slot : Bool} {r : SubRequest} :
    Does P V current e c (c.subscribed cap peer slot r) := by
  unfold Conn.subscribed
  split
  · exact does_refused
  · split_ifs
    · exact does_refused
    · exact .goes trivial
    · exact does_refused

theorem sent_frame {cur : Current root} {fresh : Fresh} {sent : StateVersion}
    (hP : ∀ cur, current = some cur → P cur) (hcur : P cur)
    (hword : cur.held.checkFresh fresh.at_ = .ok ()) (hban : cur.held.policy.bansNode node = false)
    (hwhole : holdsWhole current node = true) :
    Sent P V current e node (.frame (nextFrame cur fresh sent).1) := by
  obtain ⟨now, hnow, hnames⟩ := (Option.any_eq_true ..).mp hwhole
  refine ⟨nofun, fun p f hx => ?_, nofun, nofun, fun p f hx => ?_,
    .inr ⟨now, hP now hnow, .inl hnames⟩⟩
  · have hf := Heard.frame.inj hx
    unfold nextFrame at hf
    split_ifs at hf
    cases hf
    exact ⟨cur, now, hcur, rfl, hban, hnow, hnames⟩
  · have hf := Heard.frame.inj hx
    unfold nextFrame at hf
    split_ifs at hf
    cases hf
    exact hword

theorem does_turn {me : NodeIdentity} {cur : Current root} {sent : StateVersion}
    (hP : ∀ cur, current = some cur → P cur) (hcur : P cur)
    (hword : ∀ c, P c → ∀ f, c.fresh = some f → Word me c.held f) :
    Does P V current e c (c.turn current cur sent) := by
  unfold Conn.turn
  split
  · exact does_refused
  · rename_i fresh hfresh
    split_ifs with hban hwhole
    · exact does_refused
    · exact does_refused
    · exact .hears trivial (sent_frame hP hcur (hword cur hcur fresh hfresh).unexpired
        (by simpa using hban) (by simpa using hwhole))

theorem Served.Acts.does {cap : Nat} {s : Served root ι κ} {me : NodeIdentity} {k : κ}
    {d : Conn root ι} (ha : Acts cap s c k e d) (hk : Knows P V c.node c.stage)
    (hP : ∀ cur, s.node.current = some cur → P cur)
    (hword : ∀ c, P c → ∀ f, c.fresh = some f → Word me c.held f)
    (hV : ∀ p slot, e = .verified k (.ok p) slot → V p)
    (hans : ∀ i a, s.node.calls i = some (.answered a) → a.OfPublish) :
    Does P V s.node.current e c d := by
  cases ha with
  | opening _ => exact does_opening hP
  | subOpening _ => exact does_admitting hP
  | subRefused _ | crowded => exact does_refused
  | named hs =>
    rw [hs] at hk
    refine .goes ⟨hk, fun hn => ?_⟩
    obtain ⟨cur, hcur, hnames⟩ := (Option.any_eq_true ..).mp hn
    exact ⟨cur, hP cur hcur, hnames⟩
  | verified hs =>
    rw [hs] at hk
    exact does_known (knows_admitPeer hk fun p hp => hV p _ (by rw [hp]))
  | request hs =>
    rw [hs] at hk
    exact does_requested hk
  | replies hi => exact .hears trivial (.of_plain (hans _ _ hi).plain)
  | subscribe hs => exact does_subscribed
  | wakes hs hcur => exact .goes (hP _ hcur)
  | sends hs =>
    rw [hs] at hk
    exact does_turn hP hk hword
  | closes => exact .goes trivial

end

/-! ## Runs -/

section

variable {ι κ : Type} [DecidableEq ι] [DecidableEq κ]

/-- What a directory's calls are answered stays an answer of a publish. -/
theorem Node.Moves.ofPublish {path : String} {me : NodeIdentity} {n m : Node root ι}
    {e : NodeEvent ι} (hm : Node.Moves path me n e m)
    (h : ∀ i a, n.calls i = some (.answered a) → a.OfPublish) {i : ι} {a : Answer}
    (ha : m.calls i = some (.answered a)) : a.OfPublish := by
  have hgoes : ∀ {j : ι} {c : Call root}, m.calls = (n.goes j c).calls →
      (∀ a, c = .answered a → a.OfPublish) → a.OfPublish := by
    intro j c hcalls hc
    rw [hcalls, Node.calls_goes] at ha
    split_ifs at ha
    · exact hc a (Option.some.inj ha)
    · exact h i a ha
  cases hm with
  | store _ => exact h i a ha
  | opens _ => cases ha
  | checks _ _ hc _ => exact hgoes rfl hc
  | answers _ =>
    refine hgoes rfl fun a ha => ?_
    cases ha
    exact published_ofPublish _ _
  | calls _ _ _ | stands _ _ | beats _ _ _ _ | adopts _ _ _ _ _ | stops _ _ _ | signs _ _ _ _
  | announces _ | fails _ => exact hgoes rfl nofun

section

variable (path : String) (me : NodeIdentity) (cap : Nat) (file : PolicyFile)
  (held₀ : Option (Held root)) (es : List (ServeEvent ι κ))

/-- The directory held `c` at some point of a run, when connection `k` said `hello` or later. -/
def Since (k : κ) (c : Current root) : Prop :=
  ∃ es₁ es₂ u, es = es₁ ++ es₂ ∧
    run (Served.step path me cap) (Served.start file held₀) es₁ = some u ∧ u.node.current = some c ∧
    ∀ e ∈ es₂.tail, ¬e.Hello k

/-- The directory held `c` since connection `k` said `hello`, with a word of its own, and now
announces that or newer. -/
structure Seen (s : Served root ι κ) (k : κ) (c : Current root) : Prop where
  since : Since path me cap file held₀ es k c
  word : ∀ f, c.fresh = some f → Word me c.held f
  succeeds : ∃ cur, s.node.current = some cur ∧ Node.Succeeds c.held cur.held

/-- The token of the connection that is now `k` was verified as `p`'s. -/
def VerifiedAs (k : κ) (p : Principal) : Prop :=
  ∃ es₁ es₂ slot, es = es₁ ++ .verified k (.ok p) slot :: es₂ ∧
    ∀ node sub, .connect k node sub ∉ es₂

end

variable {path : String} {me : NodeIdentity} {cap : Nat} {file : PolicyFile}
  {held₀ : Option (Held root)} {es : List (ServeEvent ι κ)} {s t : Served root ι κ}
  {e : ServeEvent ι κ} {k : κ}

omit [Crypto] [DecidableEq ι] [DecidableEq κ] in
theorem VerifiedAs.step {p : Principal} (h : VerifiedAs es k p)
    (he : ∀ node sub, e ≠ .connect k node sub) : VerifiedAs (es ++ [e]) k p := by
  obtain ⟨es₁, es₂, slot, rfl, hno⟩ := h
  refine ⟨es₁, es₂ ++ [e], slot, by simp, fun node sub hmem => ?_⟩
  rcases List.mem_append.mp hmem with hmem | hmem
  · exact hno node sub hmem
  · exact he node sub (List.mem_singleton.mp hmem).symm

namespace Served

/-- Only a connection that is not there connects. -/
theorem Moves.ne_connect (hm : Moves path me cap s e t) {c : Conn root ι}
    (hk : s.conns k = some c) (node : NodeId) (sub : Bool) : e ≠ .connect k node sub := by
  rintro rfl
  cases hm with
  | connects hn =>
    rw [hk] at hn
    cases hn
  | acts _ ha => cases ha

/-- What is so of a directory and its connections after the events `es`. -/
structure Good (path : String) (me : NodeIdentity) (cap : Nat) (file : PolicyFile)
    (held₀ : Option (Held root)) (es : List (ServeEvent ι κ)) (s : Served root ι κ) : Prop where
  node : Node.Good path me file s.node
  answered : ∀ i a, s.node.calls i = some (.answered a) → a.OfPublish
  conns : ∀ k c, s.conns k = some c →
    Knows (Seen path me cap file held₀ es s k) (VerifiedAs es k) c.node c.stage

theorem Moves.moves_node (hm : Moves path me cap s e t) :
    t.node = s.node ∨ ∃ e', Node.Moves path me s.node e' t.node ∧
      (e' = .opens → t.conns = fun _ => none) := by
  cases hm with
  | restarts hn => exact .inr ⟨_, Node.moves_of_step hn, fun _ => rfl⟩
  | node he hn => exact .inr ⟨_, Node.moves_of_step hn, fun h => absurd h he⟩
  | publishes _ _ hn => exact .inr ⟨_, Node.moves_of_step hn, nofun⟩
  | connects _ | sleeps | acts _ _ => exact .inl rfl

variable {path : String} {me : NodeIdentity}

/-- What was seen is still what is announced, or older, where a connection lasts. A `hello` sees only
what is held. -/
theorem Good.seen (h : Good path me cap file held₀ es s)
    (hrun : run (Served.step path me cap) (start file held₀) es = some s)
    (hm : Moves path me cap s e t) {d : Conn root ι} (hd : t.conns k = some d) {c : Current root}
    (hc : Seen path me cap file held₀ es s k c) (hhello : e.Hello k → s.node.current = some c) :
    Seen path me cap file held₀ (es ++ [e]) t k c := by
  obtain ⟨⟨es₁, es₂, u, hes, hu, hcur, hno⟩, hword, cur, hnow, hsucc⟩ := hc
  refine ⟨?_, hword, ?_⟩
  · by_cases he : e.Hello k
    · exact ⟨es, [e], s, rfl, hrun, hhello he, by simp⟩
    · refine ⟨es₁, es₂ ++ [e], u, by simp [hes], hu, hcur, fun e' he' => ?_⟩
      cases es₂ with
      | nil => simp at he'
      | cons first rest =>
        rcases List.mem_append.mp he' with hmem | hmem
        · exact hno e' hmem
        · rw [List.mem_singleton.mp hmem]
          exact he
  · rcases hm.moves_node with hn | ⟨e', hn, hopens⟩
    · exact ⟨cur, hn ▸ hnow, hsucc⟩
    · have he : e' ≠ .opens := by
        intro he
        rw [hopens he] at hd
        cases hd
      obtain ⟨cur', hcur', hsucc'⟩ := h.node.succeeds hn he hnow
      exact ⟨cur', hcur', hsucc.trans hsucc'⟩

/-- A connection that acts: what it rests on, and what it is sent. -/
theorem Good.does (h : Good path me cap file held₀ es s)
    (hrun : run (Served.step path me cap) (start file held₀) es = some s)
    (hm : Moves path me cap s e t) {c d : Conn root ι} (hc : s.conns k = some c)
    (ha : Acts cap s c k e d) :
    Does (fun cur => Seen path me cap file held₀ es s k cur ∧ (e.Hello k → s.node.current = some cur))
      (VerifiedAs (es ++ [e]) k) s.node.current e c d := by
  refine ha.does ?_ (fun cur hcur => ⟨?_, fun _ => hcur⟩) (fun cur hcur => hcur.1.word)
    (fun p slot he => ?_) h.answered
  · by_cases he : e.Hello k
    · -- before the `hello`, nothing is known
      rcases (ha.hello he).2 with hs | hs
      · rw [hs]
        trivial
      · rw [hs]
        trivial
    · exact (h.conns k c hc).mono (fun _ hseen => ⟨hseen, fun hh => absurd hh he⟩)
        fun p hp => hp.step (hm.ne_connect hc)
  · exact ⟨⟨es, [], s, by simp, hrun, hcur, by simp⟩, fun f hf => h.node.word cur f hcur hf,
      cur, hcur, .inl rfl⟩
  · exact ⟨es, [], slot, by rw [he], by simp⟩

theorem Good.step (h : Good path me cap file held₀ es s)
    (hread : Wires.read path root file = .ok held₀)
    (hrun : run (Served.step path me cap) (start file held₀) es = some s)
    (hm : Moves path me cap s e t) : Good path me cap file held₀ (es ++ [e]) t where
  node := by
    rcases hm.moves_node with hn | ⟨e', hn, -⟩
    · exact hn ▸ h.node
    · exact h.node.step hread hn
  answered i a ha := by
    rcases hm.moves_node with hn | ⟨e', hn, -⟩
    · exact h.answered i a (hn ▸ ha)
    · exact hn.ofPublish h.answered ha
  conns j d hd := by
    have hseen := fun c => h.seen hrun hm hd (c := c)
    have hold : s.conns j = some d → ¬e.Hello j → Knows (Seen path me cap file held₀ (es ++ [e]) t j)
        (VerifiedAs (es ++ [e]) j) d.node d.stage := fun hj he =>
      (h.conns j d hj).mono (fun c hc => hseen c hc fun hh => absurd hh he)
        fun p hp => hp.step (hm.ne_connect hj)
    cases hm with
    | restarts _ => cases hd
    | node _ _ => exact hold hd id
    | @connects k node sub hk =>
      rw [conns_goes] at hd
      split_ifs at hd with hjk
      · cases hd
        trivial
      · exact hold hd id
    | @publishes k c peer i head now n hk hs hn =>
      change (s.goes k (c.goes (.publishes peer i))).conns j = some d at hd
      rw [conns_goes] at hd
      split_ifs at hd with hjk
      · cases hd
        trivial
      · exact hold hd id
    | sleeps => exact hold hd id
    | @acts _ k c d' hk ha =>
      have hdoes := h.does hrun (.acts hk ha) hk ha
      rw [conns_goes] at hd
      split_ifs at hd with hjk
      · cases hd
        subst hjk
        cases hdoes with
        | goes hkn | hears hkn _ => exact hkn.mono (fun c hc => hseen c hc.1 hc.2) fun _ => id
      · exact hold hd fun he => hjk (ha.hello he).1

theorem good_of_run (hread : Wires.read path root file = .ok held₀)
    (hrun : run (Served.step path me cap) (start file held₀) es = some s) :
    Good path me cap file held₀ es s := by
  refine run_induction (motive := fun es s => Good path me cap file held₀ es s)
    ⟨Node.good_start hread, fun i a ha => ?_, fun k c hc => ?_⟩
    (fun es e s t hs h hstep => h.step hread hs (moves_of_step hstep)) hrun
  · cases ha
  · cases hc

end Served

/-- **Who a directory serves.** What a step sends a connection: nothing, or one thing that the policies
held since its `hello`, and who the peer's token was verified as, let it have. -/
theorem serves (hread : read path root file = .ok held₀)
    (hrun : run (Served.step path me cap) (.start file held₀) es = some s)
    (hstep : s.step path me cap e = some t) {d : Conn root ι} (hd : t.conns k = some d) :
    (s.conns k = none ∧ d.heard = []) ∨ ∃ c, s.conns k = some c ∧ d.node = c.node ∧
      (d.heard = c.heard ∨ ∃ x, d.heard = c.heard ++ [x] ∧
        Sent (Seen path me cap file held₀ es s k) (VerifiedAs (es ++ [e]) k) s.node.current e
          c.node x) := by
  have hm := Served.moves_of_step hstep
  have hg := Served.good_of_run hread hrun
  cases hm with
  | restarts _ => cases hd
  | node _ _ => exact .inr ⟨d, hd, rfl, .inl rfl⟩
  | @connects j node sub hj =>
    rw [Served.conns_goes] at hd
    split_ifs at hd with hkj
    · cases hd
      exact .inl ⟨hkj ▸ hj, rfl⟩
    · exact .inr ⟨d, hd, rfl, .inl rfl⟩
  | @publishes j c peer i head now n hj _ hn =>
    change (s.goes j (c.goes (.publishes peer i))).conns k = some d at hd
    rw [Served.conns_goes] at hd
    split_ifs at hd with hkj
    · cases hd
      exact .inr ⟨c, hkj ▸ hj, rfl, .inl rfl⟩
    · exact .inr ⟨d, hd, rfl, .inl rfl⟩
  | sleeps => exact .inr ⟨d, hd, rfl, .inl rfl⟩
  | @acts _ j c d' hj ha =>
    have hdoes := hg.does hrun (.acts hj ha) hj ha
    rw [Served.conns_goes] at hd
    split_ifs at hd with hkj
    · cases hd
      subst hkj
      cases hdoes with
      | goes _ => exact .inr ⟨c, hj, rfl, .inl rfl⟩
      | @hears x _ _ hsent =>
        exact .inr ⟨c, hj, rfl, .inr ⟨x, rfl, hsent.mono fun _ => And.left⟩⟩
    · exact .inr ⟨d, hd, rfl, .inl rfl⟩

end

/-! ## What is announced between -/

section

variable {ι κ : Type} [DecidableEq ι] [DecidableEq κ] {path : String} {me : NodeIdentity}
  {s : Served root ι κ}

variable (cap) in
/-- What the directory does alone leaves its connections. -/
theorem run_nodes {es : List (NodeEvent ι)} {m : Node root ι}
    (hrun : run (Node.step path me) s.node es = some m) (hopens : .opens ∉ es) :
    run (Served.step path me cap) s (es.map .node) = some { s with node := m } := by
  induction es generalizing s with
  | nil => rw [← run_nil.mp hrun, List.map_nil, run]
  | cons e es ih =>
    obtain ⟨n, hstep, hrest⟩ := run_cons.mp hrun
    obtain ⟨hne, hopens⟩ := not_or.mp (mt List.mem_cons.mpr hopens)
    have hserved : s.step path me cap (.node e) = some { s with node := n } := by
      cases e with
      | opens => exact absurd rfl hne
      | _ => simp only [Served.step, hstep, Option.map_some]
    exact run_cons.mpr ⟨_, hserved, ih (s := { s with node := n }) hrest hopens⟩

end

end

end Directory

namespace Directory

/-! ## A stranger's publish -/

section Sample

attribute [local instance] Crypto.plain

/-- A directory on a file with the policy of version 1. -/
theorem read_sampleSigned : ∃ (file : PolicyFile) (held : Held (nodeId sampleRoot)),
    read "policy.json" (nodeId sampleRoot) file = .ok (some held) ∧ held.signed = sampleSigned ∧
      names held (sampleNode 9) = false := by
  obtain ⟨held, hread, hs⟩ := read_policyText "policy.json"
    (c := ⟨sampleSigned, parsed_sampleSigned⟩) verify_sampleSigned
  refine ⟨_, held, hread, hs, ?_⟩
  have htyped : sampleSigned.toPolicy = .ok held.policy := by
    have := held.typed
    rwa [hs] at this
  rw [sampleSigned, Policy.toPolicy_signed rfl] at htyped
  rw [names, hs, ← Except.ok.inj htyped]
  decide

/-- Node 9, which the policy does not name and which shows no token, publishes the policy that the
directory holds. -/
def samplePublish : List (ServeEvent Unit Unit) :=
  [.connect () (sampleNode 9) false, .opening () (.ok (.hello none)) [] 5, .named (),
    .verified () (.error (.rejected "")) false, .publish () () sampleSigned.head 5]

theorem run_samplePublish (file : PolicyFile) {held : Held (nodeId sampleRoot)}
    (hs : held.signed = sampleSigned) (hn : names held (sampleNode 9) = false) :
    ∃ s t : Served (nodeId sampleRoot) Unit Unit,
      run (Served.step "policy.json" (3 : UInt8) 1) (.start file (some held)) samplePublish =
        some s ∧
      s.step "policy.json" (3 : UInt8) 1 (.replies ()) = some t ∧
      s.node.current = some ⟨held, none⟩ ∧
      s.conns () = some ⟨sampleNode 9, false, .publishes ⟨sampleNode 9, false, none⟩ (), []⟩ ∧
      t.conns () = some ⟨sampleNode 9, false, .done,
        [.answer (.published held.version held.signed.head.hash)]⟩ := by
  have hhead : checkHead (nodeId sampleRoot) (some ⟨held, none⟩) sampleSigned.head 5 =
      .held held.version held.signed.head.hash := by
    have hv := (SignedPolicy.verify_eq_ok.mp verify_sampleSigned).1
    have hf : sampleSigned.head.checkFresh 5 = .ok () := by decide
    have hle : sampleSigned.head.head.version ≤ held.version := by
      rw [Held.version, hs]
      exact le_rfl
    simp only [checkHead, hv, hf, hle, if_true]
  simp only [samplePublish, run, Served.step, Served.start, Served.goes, Node.step, Node.start,
    Node.goes, Conn.goes, Conn.opening, Conn.admitting, Conn.known, Conn.hears, admitPeer, holdsWhole,
    Peer.admitted, hn, hhead, Function.update_self, Option.bind_some, Option.map_some,
    Option.any_some, Option.isSome_none, Bool.or_self, Bool.false_eq_true, if_false]
  refine ⟨_, _, rfl, rfl, rfl, ?_, ?_⟩
  · rfl
  · rfl

/-! ## A policy that no longer names its reader -/

theorem names_heldFirst : names heldFirst (sampleNode 2) = true := by decide

theorem names_heldSecond : names heldSecond (sampleNode 2) = false := by decide

/-- Node 2 says `hello`, as the policy of version 1 lets it, and version 2 is announced before it
asks. -/
def sampleAsking : List (ServeEvent Bool Unit) :=
  [.connect () (sampleNode 2) false, .opening () (.ok (.hello none)) [] 5, .named (),
    .verified () (.error (.rejected "")) true] ++ (announcing false 2 (sampleNode 4)).map .node

theorem run_sampleAsking {file : PolicyFile}
    (hread : read "policy.json" (nodeId sampleRoot) file = .ok (some heldFirst)) :
    ∃ (s t : Served (nodeId sampleRoot) Bool Unit) (w : Fresh),
      run (Served.step "policy.json" (3 : UInt8) 1) (.start file (some heldFirst)) sampleAsking =
        some s ∧
      s.step "policy.json" (3 : UInt8) 1 (.request () (.policy 0) 5) = some t ∧
      s.conns () = some ⟨sampleNode 2, false, .asks ⟨sampleNode 2, true, none⟩, []⟩ ∧
      t.conns () = some ⟨sampleNode 2, false, .done,
        [.answer (.policy heldSecond.signed w)]⟩ := by
  obtain ⟨w, hw⟩ := signFresh_heldSecond
  let asking : Served (nodeId sampleRoot) Bool Unit := Served.goes (.start file (some heldFirst)) ()
    ⟨sampleNode 2, false, .asks ⟨sampleNode 2, true, none⟩, []⟩
  have hello : run (Served.step "policy.json" (3 : UInt8) 1) (.start file (some heldFirst))
      [.connect () (sampleNode 2) false, .opening () (.ok (.hello none)) [] 5, .named (),
        .verified () (.error (.rejected "")) true] = some asking := by
    simp only [run, Served.step, Served.start, Served.goes, Node.start, Conn.goes, Conn.opening,
      Conn.admitting, Conn.known, admitPeer, holdsWhole, Peer.admitted, names_heldFirst,
      Function.update_self, Function.update_idem, Option.bind_some, Option.map_some, Option.any_some,
      Bool.true_or, if_true, asking]
  obtain ⟨m, hm, hcur, -⟩ :=
    run_announcing (n := asking.node) false
      (by decide : (samplePolicy 2 [sampleNode 4]).validate = .ok ()) rfl rfl rfl rfl rfl hread
      (by decide)
  have hfresh : signFresh (3 : UInt8) (versionHeld 2 (sampleNode 4) (by decide)) 5 = some w := hw
  rw [hfresh] at hcur
  have hanswer : answer m.current ⟨sampleNode 2, true, none⟩ (.policy 0) 5 =
      .policy heldSecond.signed w := by
    have hword : currentWithFresh m.current 5 = .ok (⟨heldSecond, some w⟩, w) := by
      rw [hcur]
      rfl
    have hnewer : ¬(0 : StateVersion) ≥ heldSecond.version := by decide
    simp only [answer, Peer.admitted, hword, Bool.true_or, Bool.true_eq_false, if_false, if_neg hnewer]
  refine ⟨{ asking with node := m }, _, w, run_append.mpr ⟨asking, hello,
    run_nodes 1 hm (by simp [announcing, accepting])⟩, rfl, rfl, ?_⟩
  rw [Served.conns_goes, if_pos rfl]
  simp only [Conn.requested, Peer.admitted, Bool.true_or, if_true, Conn.hears, hanswer, List.nil_append]

/-- What it is answered is so of what the directory held since its `hello`. -/
theorem serves_sample : ∃ (file : PolicyFile) (s t : Served (nodeId sampleRoot) Bool Unit)
    (c d : Conn (nodeId sampleRoot) Bool) (w : Fresh), s.conns () = some c ∧ t.conns () = some d ∧
      d.heard = c.heard ++ [.answer (.policy heldSecond.signed w)] ∧
      Sent (Seen "policy.json" (3 : UInt8) 1 file (some heldFirst) sampleAsking s ())
        (VerifiedAs (sampleAsking ++ [.request () (.policy 0) 5]) ()) s.node.current
        (.request () (.policy 0) 5 : ServeEvent Bool Unit) c.node
        (.answer (.policy heldSecond.signed w)) := by
  have hread : read "policy.json" (nodeId sampleRoot)
      (.text (policyText (versionOffer 1 (sampleNode 2)).policy)) = .ok (some heldFirst) :=
    read_versionOffer (by decide)
  obtain ⟨s, t, w, hrun, hstep, hc, hd⟩ := run_sampleAsking hread
  rcases serves hread hrun hstep hd with ⟨hnone, -⟩ | ⟨c, hc', -, hheard⟩
  · rw [hc] at hnone
    cases hnone
  · obtain rfl := Option.some.inj (hc.symm.trans hc')
    rcases hheard with hheard | ⟨x, hx, hsent⟩
    · cases hheard
    · obtain rfl : Heard.answer (.policy heldSecond.signed w) = x := List.singleton_inj.mp hx
      exact ⟨_, s, t, _, _, w, hc, hd, rfl, hsent⟩

/-- A peer that no policy named and whose token nothing verified hears which policy the directory
holds; and a node that the policy held at its `hello` named is sent one that does not name it. -/
theorem not_only_refused :
    (∃ (file : PolicyFile) (held : Held (nodeId sampleRoot))
      (s t : Served (nodeId sampleRoot) Unit Unit) (c d : Conn (nodeId sampleRoot) Unit) (peer : Peer),
      read "policy.json" (nodeId sampleRoot) file = .ok (some held) ∧
      run (Served.step "policy.json" (3 : UInt8) 1) (.start file (some held)) samplePublish = some s ∧
      s.step "policy.json" (3 : UInt8) 1 (.replies ()) = some t ∧
      s.conns () = some c ∧ c.stage = .publishes peer () ∧ peer.admitted = false ∧ c.heard = [] ∧
      t.conns () = some d ∧
      d.heard = [.answer (.published held.version held.signed.head.hash)]) ∧
    ∃ (file : PolicyFile) (s t : Served (nodeId sampleRoot) Bool Unit)
      (c d : Conn (nodeId sampleRoot) Bool) (w : Fresh),
      read "policy.json" (nodeId sampleRoot) file = .ok (some heldFirst) ∧
      run (Served.step "policy.json" (3 : UInt8) 1) (.start file (some heldFirst)) sampleAsking =
        some s ∧
      s.step "policy.json" (3 : UInt8) 1 (.request () (.policy 0) 5) = some t ∧
      s.conns () = some c ∧ t.conns () = some d ∧
      d.heard = c.heard ++ [.answer (.policy heldSecond.signed w)] ∧
      names heldSecond c.node = false := by
  constructor
  · obtain ⟨file, held, hread, hs, hn⟩ := read_sampleSigned
    obtain ⟨s, t, hrun, hstep, -, hc, hd⟩ := run_samplePublish file hs hn
    exact ⟨file, held, s, t, _, _, _, hread, hrun, hstep, hc, rfl, rfl, rfl, hd, rfl⟩
  · have hread : read "policy.json" (nodeId sampleRoot)
        (.text (policyText (versionOffer 1 (sampleNode 2)).policy)) = .ok (some heldFirst) :=
      read_versionOffer (by decide)
    obtain ⟨s, t, w, hrun, hstep, hc, hd⟩ := run_sampleAsking hread
    exact ⟨_, s, t, _, _, w, hread, hrun, hstep, hc, hd, rfl, names_heldSecond⟩

end Sample

end Directory

end Wires
