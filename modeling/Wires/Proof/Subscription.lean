import Wires.Framework.Ledger
import Wires.Proof.Serve

/-!
# What a subscriber is sent

A subscription keeps the version its subscriber has, and a turn of it reads what
the directory holds and sends one frame: the policy if that is newer, else the
beat, or a refusal that ends it (`Conn.Turns`). However many announcements come
between two turns, the frames are `Fed`, and each turn brings the subscriber to
the policy it read (`subscription`). Whether that policy still names the
subscriber is asked of what is held by then: the turns that go wrong are those
that read a policy which neither names nor bans it, and ask after one that names
it was announced (`Orderly`).
-/

namespace Wires

namespace Directory

/-! ## Frames -/

/-- The version of a whole policy. -/
def SubFrame.version? : SubFrame → Option StateVersion
  | .policy p _ => some p.version
  | _ => none

/-- Whether a frame ends the stream. -/
def SubFrame.Refuses : SubFrame → Prop
  | .denied _ => True
  | _ => False

/-- The versions of the whole policies among frames. -/
def versions (frames : List SubFrame) : List StateVersion := frames.filterMap SubFrame.version?

/-- What a subscriber has after frames: the last policy sent, or what it claimed. -/
def has (have_ : StateVersion) (frames : List SubFrame) : StateVersion := (versions frames).getLastD have_

variable {have_ : StateVersion} {frames : List SubFrame} {f x : SubFrame}

theorem versions_concat : versions (frames ++ [x]) = versions frames ++ x.version?.toList := by
  rw [versions, List.filterMap_append]
  congr 1

theorem has_concat : has have_ (frames ++ [x]) = x.version?.getD (has have_ frames) := by
  rw [has, versions_concat]
  cases x.version? with
  | none => simp [has]
  | some v => simp

/-- The last of increasing versions is the highest. -/
theorem le_has (h : (have_ :: versions frames).Pairwise (· < ·)) {v : StateVersion}
    (hv : v ∈ have_ :: versions frames) : v ≤ has have_ frames := by
  unfold has
  generalize versions frames = vs at h hv
  induction vs generalizing have_ v with
  | nil => exact (List.mem_singleton.mp hv).le
  | cons w vs ih =>
    rw [List.pairwise_cons] at h
    have hlast : (w :: vs).getLastD have_ = vs.getLastD w := by cases vs <;> rfl
    rw [hlast]
    rcases List.mem_cons.mp hv with rfl | hv
    · exact (h.1 w List.mem_cons_self).le.trans (ih h.2 List.mem_cons_self)
    · exact ih h.2 hv

variable [Crypto] {root : NodeId} {ι κ : Type} {P Q : Current root → Prop}

/-- Whole policies in strictly increasing order, all above what the subscriber claimed; beats for
no head above what it has; and nothing after a refusal. -/
structure Fed (P : Current root → Prop) (have_ : StateVersion) (frames : List SubFrame) : Prop where
  increasing : (have_ :: versions frames).Pairwise (· < ·)
  policy : ∀ p w, .policy p w ∈ frames → ∃ cur, P cur ∧ cur.held.signed = p ∧ cur.fresh = some w
  beat : ∀ before w after, frames = before ++ .fresh w :: after →
    ∃ cur, P cur ∧ cur.fresh = some w ∧ cur.held.version ≤ has have_ before
  last : ∀ before x after, frames = before ++ x :: after → x.Refuses → after = []

theorem fed_nil : Fed P have_ [] :=
  ⟨List.pairwise_singleton _ _, nofun, fun before _ _ h => by simp at h, fun before _ _ h => by simp at h⟩

theorem Fed.mono (h : Fed P have_ frames) (hPQ : ∀ cur, P cur → Q cur) : Fed Q have_ frames where
  increasing := h.increasing
  policy := fun p w hp => (h.policy p w hp).imp fun cur hcur => ⟨hPQ cur hcur.1, hcur.2⟩
  beat := fun before w after heq =>
    (h.beat before w after heq).imp fun cur hcur => ⟨hPQ cur hcur.1, hcur.2⟩
  last := h.last

/-- One more frame, of a stream that was not refused. -/
theorem Fed.concat (h : Fed P have_ frames) (hopen : ∀ y ∈ frames, ¬y.Refuses)
    (hversion : ∀ v, x.version? = some v → has have_ frames < v)
    (hpolicy : ∀ p w, x = .policy p w → ∃ cur, P cur ∧ cur.held.signed = p ∧ cur.fresh = some w)
    (hbeat : ∀ w, x = .fresh w →
      ∃ cur, P cur ∧ cur.fresh = some w ∧ cur.held.version ≤ has have_ frames) :
    Fed P have_ (frames ++ [x]) where
  increasing := by
    rw [versions_concat, ← List.cons_append, List.pairwise_append]
    refine ⟨h.increasing, ?_, fun v hv w hw => ?_⟩
    · cases x.version? <;> simp
    · exact (le_has h.increasing hv).trans_lt (hversion w (by simpa using hw))
  policy := fun p w hp => by
    rcases List.mem_append.mp hp with hp | hp
    · exact h.policy p w hp
    · exact hpolicy p w (List.mem_singleton.mp hp).symm
  beat := fun before w after heq => by
    rcases split_concat heq with ⟨rfl, hx, rfl⟩ | ⟨rest, rfl, hframes⟩
    · exact hbeat w hx.symm
    · exact h.beat before w rest hframes
  last := fun before y after heq hy => by
    rcases split_concat heq with ⟨rfl, hx, rfl⟩ | ⟨rest, rfl, rfl⟩
    · rfl
    · exact absurd hy (hopen y (List.mem_append_right _ List.mem_cons_self))

/-! ## Turns -/

/-- What the next event makes of a subscription, or of one that has ended. -/
inductive Conn.Next (current : Option (Current root)) (k : κ) (c : Conn root ι) :
    ServeEvent ι κ → Conn root ι → Prop
  | same {e} : e ≠ .sends k → Next current k c e c
  | wakes {cur sent} : c.stage = .follows sent → current = some cur →
    Next current k c (.wakes k) (c.goes (.weighs cur sent))
  | sends {cur sent} : c.stage = .weighs cur sent → Next current k c (.sends k) (c.turn current cur sent)
  | closes : Next current k c (.closes k) (c.goes .done)

/-- Whether a connection is a subscription, or ended one. -/
def ConnStage.Subscribes : ConnStage root ι → Prop
  | .follows _ | .weighs _ _ | .done => True
  | _ => False

section

variable [DecidableEq ι] [DecidableEq κ] {path : String} {me : NodeIdentity} {cap : Nat}
  {s t : Served root ι κ} {e : ServeEvent ι κ} {k : κ} {c d : Conn root ι}

/-- What a subscription has behind it does not come to it again. -/
theorem step_eq_none (hk : s.conns k = some c) (hstage : c.stage.Subscribes)
    (he : (∃ frame host now, e = .opening k frame host now) ∨ (∃ frame now, e = .subOpening k frame now) ∨
      e = .crowded k ∨ e = .replies k) : s.step path me cap e = none := by
  obtain ⟨node, sub, stage, heard⟩ := c
  rcases he with ⟨frame, host, now, rfl⟩ | ⟨frame, now, rfl⟩ | rfl | rfl
  all_goals
    cases stage with
    | follows _ | weighs _ _ | done => simp only [Served.step, hk]
    | _ => exact absurd hstage not_false

/-- One step: the directory restarts, and the connection is gone, or the subscription goes on. -/
theorem next_of_step (h : s.step path me cap e = some t) (hk : s.conns k = some c)
    (hstage : c.stage.Subscribes) :
    t.conns k = none ∨ ∃ d, t.conns k = some d ∧ c.Next s.node.current k e d := by
  have hm := Served.moves_of_step h
  cases hm with
  | restarts _ => exact .inl rfl
  | node _ _ => exact .inr ⟨c, hk, .same nofun⟩
  | @connects j _ _ hj =>
    have hkj : k ≠ j := by
      rintro rfl
      rw [hk] at hj
      cases hj
    exact .inr ⟨c, by rw [Served.conns_goes, if_neg hkj, hk], .same nofun⟩
  | @publishes j c' _ _ _ _ n hj hs _ =>
    have hkj : k ≠ j := by
      rintro rfl
      obtain rfl := Option.some.inj (hk.symm.trans hj)
      rw [hs] at hstage
      exact hstage
    refine .inr ⟨c, ?_, .same nofun⟩
    exact (Served.conns_goes (s := s)).trans ((if_neg hkj).trans hk)
  | sleeps => exact .inr ⟨c, hk, .same nofun⟩
  | @acts _ j c' d hj ha =>
    by_cases hkj : k = j
    · subst hkj
      obtain rfl := Option.some.inj (hk.symm.trans hj)
      refine .inr ⟨d, by rw [Served.conns_goes, if_pos rfl], ?_⟩
      have hno := fun he => Option.some_ne_none _ (h.symm.trans (step_eq_none hk hstage he))
      cases ha with
      | opening => exact absurd (.inl ⟨_, _, _, rfl⟩) hno
      | subOpening => exact absurd (.inr (.inl ⟨_, _, rfl⟩)) hno
      | subRefused => exact absurd (.inr (.inl ⟨_, _, rfl⟩)) hno
      | crowded => exact absurd (.inr (.inr (.inl rfl))) hno
      | replies _ => exact absurd (.inr (.inr (.inr rfl))) hno
      | named hs | verified hs | request hs | subscribe hs =>
        rw [hs] at hstage
        exact hstage.elim
      | wakes hs hcur => exact .wakes hs hcur
      | sends hs => exact .sends hs
      | closes => exact .closes
    · refine .inr ⟨c, by rw [Served.conns_goes, if_neg hkj, hk], .same ?_⟩
      rintro rfl
      cases ha
      exact hkj rfl

omit [DecidableEq ι] in
/-- A turn: it is refused, or gets the policy it read or the beat for it. -/
theorem turn_cases {current : Option (Current root)} {cur : Current root} {sent : StateVersion}
    (hsub : c.sub = true) :
    (∃ reason, c.turn current cur sent = c.hears (.frame (.denied reason)) .done) ∨
    ∃ fresh, cur.fresh = some fresh ∧ cur.held.policy.bansNode c.node = false ∧
      holdsWhole current c.node = true ∧
      (sent < cur.held.version ∧ c.turn current cur sent =
          c.hears (.frame (.policy cur.held.signed fresh)) (.follows cur.held.version) ∨
        cur.held.version ≤ sent ∧ c.turn current cur sent =
          c.hears (.frame (.fresh fresh)) (.follows sent)) := by
  have hrefused : ∀ reason, c.refused reason =
      c.hears (.frame (.denied (truncateReason reason))) .done := fun reason => by
    rw [Conn.refused, if_pos hsub]
  unfold Conn.turn
  split
  · exact .inl ⟨_, hrefused _⟩
  · rename_i fresh hfresh
    split_ifs with hbans hholds
    · exact .inl ⟨_, hrefused _⟩
    · exact .inl ⟨_, hrefused _⟩
    · refine .inr ⟨fresh, hfresh, by simpa using hbans, by simpa using hholds, ?_⟩
      unfold nextFrame
      by_cases hlt : sent < cur.held.version
      · rw [if_pos hlt]
        exact .inl ⟨hlt, rfl⟩
      · rw [if_neg hlt]
        exact .inr ⟨not_lt.mp hlt, rfl⟩

/-- Where a subscription is, having sent frames. -/
def Follows (P : Current root → Prop) (have_ : StateVersion) (frames : List SubFrame) :
    ConnStage root ι → Prop
  | .follows sent => sent = has have_ frames ∧ ∀ x ∈ frames, ¬x.Refuses
  | .weighs cur sent => P cur ∧ sent = has have_ frames ∧ ∀ x ∈ frames, ¬x.Refuses
  | .done => True
  | _ => False

/-- What is so of a subscription by `node`, whose subscriber claimed `have_`: since it began, it was
sent `frames`. -/
structure Subscribed (P Q : Current root → Prop) (node : NodeId) (heard : List Heard)
    (have_ : StateVersion) (frames : List SubFrame) (c : Conn root ι) : Prop where
  node : c.node = node
  sub : c.sub = true
  heard : c.heard = heard ++ frames.map .frame
  fed : Fed P have_ frames
  follows : Follows Q have_ frames c.stage

omit [DecidableEq ι] in
theorem Follows.subscribes {stage : ConnStage root ι} (h : Follows P have_ frames stage) :
    stage.Subscribes := by
  cases stage with
  | follows _ | weighs _ _ | done => trivial
  | _ => exact h

omit [DecidableEq ι] in
theorem Follows.mono {stage : ConnStage root ι} (h : Follows P have_ frames stage)
    (hPQ : ∀ cur, P cur → Q cur) : Follows Q have_ frames stage := by
  cases stage with
  | weighs cur _ => exact ⟨hPQ cur h.1, h.2⟩
  | follows _ | done => exact h
  | _ => exact h

omit [DecidableEq ι] in
/-- One turn brings the subscriber to the policy it read, or refuses it. -/
theorem Subscribed.turn {node : NodeId} {heard : List Heard} {cur : Current root}
    {sent : StateVersion} (h : Subscribed P Q node heard have_ frames c)
    (Q' : Current root → Prop) (current : Option (Current root)) (hQP : ∀ cur, Q cur → P cur) (hc : c.stage = .weighs cur sent) :
    ∃ f, (c.turn current cur sent).heard = c.heard ++ [.frame f] ∧
      Subscribed P Q' node heard have_ (frames ++ [f]) (c.turn current cur sent) ∧
      (f.Refuses ∧ (c.turn current cur sent).stage = .done ∨
        ¬f.Refuses ∧ has have_ (frames ++ [f]) = max (has have_ frames) cur.held.version ∧
          cur.fresh ≠ none ∧ cur.held.policy.bansNode node = false ∧
          holdsWhole current node = true) := by
  obtain ⟨hcur, hsent, hopen⟩ : Q cur ∧ sent = has have_ frames ∧ ∀ x ∈ frames, ¬x.Refuses := by
    have := h.follows
    rwa [hc] at this
  have hheard : ∀ f, c.heard ++ [Heard.frame f] = heard ++ (frames ++ [f]).map .frame := fun f => by
    rw [h.heard, List.map_append, List.append_assoc]
    rfl
  have hstill : ∀ f : SubFrame, ¬f.Refuses → ∀ x ∈ frames ++ [f], ¬x.Refuses := fun f hf x hx => by
    rcases List.mem_append.mp hx with hx | hx
    · exact hopen x hx
    · exact List.mem_singleton.mp hx ▸ hf
  rcases turn_cases h.sub with ⟨reason, heq⟩ | ⟨fresh, hfresh, hbans, hholds, ⟨hlt, heq⟩ | ⟨hle, heq⟩⟩
  · rw [heq]
    refine ⟨.denied reason, rfl, ⟨h.node, h.sub, hheard _, ?_, trivial⟩, .inl ⟨trivial, rfl⟩⟩
    exact h.fed.concat hopen nofun nofun nofun
  · rw [heq]
    refine ⟨.policy cur.held.signed fresh, rfl, ⟨h.node, h.sub, hheard _, ?_, ?_, hstill _ not_false⟩,
      .inr ⟨not_false, ?_, by rw [hfresh]; nofun, h.node ▸ hbans, h.node ▸ hholds⟩⟩
    · refine h.fed.concat hopen (fun v hv => ?_) (fun p w hp => ?_) nofun
      · cases hv
        exact hsent ▸ hlt
      · cases hp
        exact ⟨cur, hQP cur hcur, rfl, hfresh⟩
    · rw [has_concat]
      rfl
    · rw [has_concat, max_eq_right (hsent ▸ hlt.le)]
      rfl
  · rw [heq]
    refine ⟨.fresh fresh, rfl, ⟨h.node, h.sub, hheard _, ?_, ?_, hstill _ not_false⟩,
      .inr ⟨not_false, ?_, by rw [hfresh]; nofun, h.node ▸ hbans, h.node ▸ hholds⟩⟩
    · refine h.fed.concat hopen nofun nofun fun w hw => ?_
      cases hw
      exact ⟨cur, hQP cur hcur, hfresh, hsent ▸ hle⟩
    · rw [has_concat, hsent]
      rfl
    · rw [has_concat, max_eq_left (hsent ▸ hle)]
      rfl

omit [DecidableEq ι] in
theorem Subscribed.mono {P' Q' : Current root → Prop} {node : NodeId} {heard : List Heard}
    (h : Subscribed P Q node heard have_ frames c) (hP : ∀ cur, P cur → P' cur)
    (hQ : ∀ cur, Q cur → Q' cur) : Subscribed P' Q' node heard have_ frames c :=
  ⟨h.node, h.sub, h.heard, h.fed.mono hP, h.follows.mono hQ⟩

/-- A connection that is not there comes to be by connecting. -/
theorem connects_of_step (h : s.step path me cap e = some t) (hk : s.conns k = none)
    (hd : t.conns k = some d) : ∃ node sub, e = .connect k node sub := by
  have hother : ∀ {j : κ} {c : Conn root ι}, s.conns j = some c → k ≠ j := by
    rintro j c hj rfl
    rw [hk] at hj
    cases hj
  have hstays : ∀ {j : κ} {c c' : Conn root ι}, s.conns j = some c → (s.goes j c').conns k = none :=
    fun hj => by rw [Served.conns_goes, if_neg (hother hj), hk]
  cases Served.moves_of_step h with
  | restarts _ => cases hd
  | node _ _ | sleeps =>
    replace hd : s.conns k = some d := hd
    rw [hk] at hd
    cases hd
  | @connects j node sub _ =>
    by_cases hkj : k = j
    · exact ⟨node, sub, by rw [hkj]⟩
    · rw [Served.conns_goes, if_neg hkj, hk] at hd
      cases hd
  | publishes hj _ _ =>
    replace hd : (s.goes _ _).conns k = some d := hd
    rw [hstays hj] at hd
    cases hd
  | acts hj _ =>
    rw [hstays hj] at hd
    cases hd

/-! ## Runs -/

variable (path me cap) in
/-- Connection `k` was woken last when `cur` was held, and had no turn since. -/
def Woken (t : Served root ι κ) (k : κ) (es : List (ServeEvent ι κ)) (cur : Current root) : Prop :=
  ∃ before after v, es = before ++ .wakes k :: after ∧
    run (Served.step path me cap) t before = some v ∧ v.node.current = some cur ∧ .sends k ∉ after

theorem Woken.concat {es : List (ServeEvent ι κ)} {cur : Current root}
    (h : Woken path me cap t k es cur) (he : e ≠ .sends k) : Woken path me cap t k (es ++ [e]) cur := by
  obtain ⟨before, after, v, rfl, hrun, hcur, hno⟩ := h
  refine ⟨before, after ++ [e], v, by simp, hrun, hcur, fun hmem => ?_⟩
  rcases List.mem_append.mp hmem with hmem | hmem
  · exact hno hmem
  · exact he (List.mem_singleton.mp hmem).symm

variable {file : PolicyFile} {held₀ : Option (Held root)}

variable (path me cap file held₀) in
/-- The directory announced `cur` at some point of a run. -/
def Announced (es : List (ServeEvent ι κ)) (cur : Current root) : Prop :=
  ∃ es₁ es₂ u, es = es₁ ++ es₂ ∧
    run (Served.step path me cap) (Served.start file held₀) es₁ = some u ∧ u.node.current = some cur

variable (path me cap file held₀) in
/-- The directory announced `cur`, with a word of its own. -/
def Vouched (es : List (ServeEvent ι κ)) (cur : Current root) : Prop :=
  Announced path me cap file held₀ es cur ∧ ∀ w, cur.fresh = some w → Word me cur.held w

theorem Vouched.concat {es : List (ServeEvent ι κ)} {cur : Current root}
    (h : Vouched path me cap file held₀ es cur) : Vouched path me cap file held₀ (es ++ [e]) cur := by
  obtain ⟨⟨es₁, es₂, u, rfl, hrun, hcur⟩, hword⟩ := h
  exact ⟨⟨es₁, es₂ ++ [e], u, by simp, hrun, hcur⟩, hword⟩

/-- What is held is vouched for. -/
theorem vouched_of_run (hread : read path root file = .ok held₀) {es : List (ServeEvent ι κ)}
    (hrun : run (Served.step path me cap) (.start file held₀) es = some s) {cur : Current root}
    (hcur : s.node.current = some cur) : Vouched path me cap file held₀ es cur :=
  ⟨⟨es, [], s, by simp, hrun, hcur⟩, fun w hw => (Served.good_of_run hread hrun).node.word cur w hcur hw⟩

/-- A subscription goes on as one, as long as its connection lasts. -/
theorem subscribed_of_run (hread : read path root file = .ok held₀) {es es' : List (ServeEvent ι κ)}
    (hrun : run (Served.step path me cap) (.start file held₀) es = some t)
    (hc : t.conns k = some c) (hsub : c.sub = true) (hfollows : c.stage = .follows have_)
    (hrun' : run (Served.step path me cap) t es' = some s)
    (hsame : ∀ node sub, .connect k node sub ∉ es') (hd : s.conns k = some d) :
    ∃ frames, Subscribed (Vouched path me cap file held₀ (es ++ es'))
      (fun cur => Woken path me cap t k es' cur ∧ Vouched path me cap file held₀ (es ++ es') cur)
      c.node c.heard have_ frames d := by
  refine run_induction (motive := fun es' s => (∀ node sub, .connect k node sub ∉ es') →
    ∀ d, s.conns k = some d → ∃ frames, Subscribed (Vouched path me cap file held₀ (es ++ es'))
      (fun cur => Woken path me cap t k es' cur ∧ Vouched path me cap file held₀ (es ++ es') cur)
      c.node c.heard have_ frames d) ?_ ?_ hrun' hsame d hd
  · intro _ d hd
    obtain rfl := Option.some.inj (hc.symm.trans hd)
    refine ⟨[], rfl, hsub, (List.append_nil _).symm, fed_nil, ?_⟩
    rw [hfollows]
    exact ⟨rfl, nofun⟩
  · intro es' e s u hs ih he hsame d hd
    have hsame' : ∀ node sub, .connect k node sub ∉ es' := fun node sub hmem =>
      hsame node sub (List.mem_append_left _ hmem)
    cases hk : s.conns k with
    | none =>
      obtain ⟨node, sub, rfl⟩ := connects_of_step he hk hd
      exact absurd (List.mem_append_right _ (List.mem_singleton_self _)) (hsame node sub)
    | some c' =>
      obtain ⟨frames, h⟩ := ih hsame' c' hk
      have hP : ∀ cur, Vouched path me cap file held₀ (es ++ es') cur →
          Vouched path me cap file held₀ (es ++ (es' ++ [e])) cur := fun cur hcur => by
        rw [← List.append_assoc]
        exact hcur.concat
      rcases next_of_step he hk h.follows.subscribes with hnone | ⟨d', hd', hnext⟩
      · rw [hnone] at hd
        cases hd
      · obtain rfl := Option.some.inj (hd'.symm.trans hd)
        cases hnext with
        | same hne =>
          exact ⟨frames, h.mono hP fun cur hcur => ⟨hcur.1.concat hne, hP cur hcur.2⟩⟩
        | @wakes cur sent hstage hcur =>
          have hvouched := hP cur (vouched_of_run hread (run_append.mpr ⟨t, hrun, hs⟩) hcur)
          have hfollows := h.follows
          rw [hstage] at hfollows
          exact ⟨frames, h.node, h.sub, h.heard, h.fed.mono hP,
            ⟨⟨es', [], s, rfl, hs, hcur, List.not_mem_nil⟩, hvouched⟩, hfollows⟩
        | @sends cur sent hstage =>
          obtain ⟨f, -, hturn, -⟩ := h.turn _ s.node.current (fun _ h => h.2) hstage
          exact ⟨frames ++ [f], hturn.mono hP fun _ => id⟩
        | closes => exact ⟨frames, h.node, h.sub, h.heard, h.fed.mono hP, trivial⟩

/-- A connection that is there was there before, unless it connected. -/
theorem exists_of_run {es : List (ServeEvent ι κ)} (hrun : run (Served.step path me cap) s es = some t)
    (hsame : ∀ node sub, .connect k node sub ∉ es) (hd : t.conns k = some d) :
    ∃ c, s.conns k = some c := by
  induction es generalizing s with
  | nil =>
    obtain rfl := run_nil.mp hrun
    exact ⟨d, hd⟩
  | cons e es ih =>
    obtain ⟨u, hs, hrest⟩ := run_cons.mp hrun
    obtain ⟨c, hc⟩ := ih hrest fun node sub hmem => hsame node sub (List.mem_cons_of_mem _ hmem)
    cases hk : s.conns k with
    | some c => exact ⟨c, rfl⟩
    | none =>
      obtain ⟨node, sub, rfl⟩ := connects_of_step hs hk hc
      exact absurd List.mem_cons_self (hsame node sub)

omit [DecidableEq ι] [DecidableEq κ] in
theorem Conn.Next.heard {current : Option (Current root)} (h : c.Next current k e d)
    (hstage : c.stage.Subscribes) : d.stage.Subscribes ∧
      ∃ later, d.heard = c.heard ++ later ∧ (c.stage = .done → later = [] ∧ d.stage = .done) := by
  cases h with
  | same _ => exact ⟨hstage, [], (List.append_nil _).symm, fun hdone => ⟨rfl, hdone⟩⟩
  | wakes hs _ =>
    refine ⟨trivial, [], (List.append_nil _).symm, fun hdone => ?_⟩
    rw [hs] at hdone
    cases hdone
  | @sends cur sent hs =>
    have hturn : (c.turn current cur sent).stage.Subscribes ∧
        ∃ x, (c.turn current cur sent).heard = c.heard ++ [x] := by
      unfold Conn.turn Conn.refused
      split
      · exact ⟨trivial, _, rfl⟩
      · split_ifs <;> exact ⟨trivial, _, rfl⟩
    obtain ⟨hsubscribes, x, hx⟩ := hturn
    refine ⟨hsubscribes, [x], hx, fun hdone => ?_⟩
    rw [hs] at hdone
    cases hdone
  | closes => exact ⟨trivial, [], (List.append_nil _).symm, fun _ => ⟨rfl, rfl⟩⟩

/-- What was heard stays, and nothing is heard after the end. -/
theorem heard_of_run (hk : s.conns k = some c) (hstage : c.stage.Subscribes)
    {es : List (ServeEvent ι κ)} (hrun : run (Served.step path me cap) s es = some t)
    (hsame : ∀ node sub, .connect k node sub ∉ es) (hd : t.conns k = some d) :
    ∃ later, d.heard = c.heard ++ later ∧ (c.stage = .done → later = []) := by
  induction es generalizing s c with
  | nil =>
    obtain rfl := run_nil.mp hrun
    obtain rfl := Option.some.inj (hk.symm.trans hd)
    exact ⟨[], (List.append_nil _).symm, fun _ => rfl⟩
  | cons e es ih =>
    obtain ⟨u, hs, hrest⟩ := run_cons.mp hrun
    have hsame' : ∀ node sub, .connect k node sub ∉ es := fun node sub hmem =>
      hsame node sub (List.mem_cons_of_mem _ hmem)
    obtain ⟨c', hc'⟩ := exists_of_run hrest hsame' hd
    rcases next_of_step hs hk hstage with hnone | ⟨c'', hc'', hnext⟩
    · rw [hnone] at hc'
      cases hc'
    · obtain ⟨hstage', now, hnow, hdone⟩ := hnext.heard hstage
      obtain ⟨later, hlater, hend⟩ := ih hc'' hstage' hrest hsame'
      refine ⟨now ++ later, by rw [hlater, hnow, List.append_assoc], fun h => ?_⟩
      rw [(hdone h).1, hend (hdone h).2]
      rfl

/-- The subscription that a `subscribe` begins. -/
theorem sub_of_subscribe {r : SubRequest} {slot : Bool}
    (h : s.step path me cap (.subscribe k r slot) = some t) (hc : t.conns k = some c) :
    c.sub = true := by
  simp only [Served.step] at h
  split at h
  · rename_i hk
    cases h
    rw [Served.conns_goes, if_pos rfl] at hc
    obtain rfl := Option.some.inj hc
    unfold Conn.subscribed Conn.refused
    split
    · rfl
    · split_ifs <;> rfl
  · cases h

/-- At each of its turns, connection `k` is told that it may not hold a policy that does not name it,
or asks for it of one that does not name it either. A policy that bans it, or that the directory has no
word for, is refused whatever is held by then. -/
def Orderly (k : κ) (s : Served root ι κ) : ServeEvent ι κ → Prop
  | .sends _ => ∀ c cur sent, s.conns k = some c → c.stage = .weighs cur sent → cur.fresh ≠ none →
    cur.held.policy.bansNode c.node = false → names cur.held c.node = false →
    holdsWhole s.node.current c.node = false
  | _ => True

/-- **What a subscriber is sent.** In every run of a directory and its connections, a subscription whose
subscriber claimed `have_` is sent the policies that the directory announced in strictly increasing
order, all above `have_`, beats that are the directory's word for a head it already has, and nothing after
a refusal (`Fed`). Each turn is for the policy that was held when the connection was woken: it is refused,
or has that policy then, if it is newer than what it had. And where every turn is orderly, one that reads
a policy that does not name the subscriber, or that the directory does not vouch for, refuses it. -/
theorem subscription (hread : read path root file = .ok held₀) {es es' : List (ServeEvent ι κ)}
    (hrun : run (Served.step path me cap) (.start file held₀) es = some s) {slot : Bool}
    (hstep : s.step path me cap (.subscribe k (.subscribe have_) slot) = some t)
    (hc : t.conns k = some c) (hfollows : c.stage = .follows have_)
    {u : Served root ι κ} (hrun' : run (Served.step path me cap) t es' = some u)
    (hsame : ∀ node sub, .connect k node sub ∉ es') (hd : u.conns k = some d) :
    ∃ frames, d.heard = c.heard ++ frames.map .frame ∧
      Fed (Vouched path me cap file held₀ (es ++ .subscribe k (.subscribe have_) slot :: es'))
        have_ frames ∧
      ∀ before after v cv cur sent, es' = before ++ .sends k :: after →
        run (Served.step path me cap) t before = some v → v.conns k = some cv →
        cv.stage = .weighs cur sent → Woken path me cap t k before cur ∧
          ∃ sofar f later, frames = sofar ++ f :: later ∧
            (f.Refuses ∨ has have_ (sofar ++ [f]) = max (has have_ sofar) cur.held.version) ∧
            ((∀ before e after v, es' = before ++ e :: after →
                run (Served.step path me cap) t before = some v → Orderly k v e) →
              cur.fresh = none ∨ names cur.held c.node = false → f.Refuses ∧ later = []) := by
  have hsub := sub_of_subscribe hstep hc
  have hstart : run (Served.step path me cap) (.start file held₀)
      (es ++ [.subscribe k (.subscribe have_) slot]) = some t := run_concat.mpr ⟨s, hrun, hstep⟩
  obtain ⟨frames, h⟩ := subscribed_of_run hread hstart hc hsub hfollows hrun' hsame hd
  refine ⟨frames, h.heard, ?_, ?_⟩
  · have hfed := h.fed
    rwa [List.append_assoc] at hfed
  intro before after v cv cur sent heq hv hcv hstage
  subst heq
  obtain ⟨v', hv', hrest⟩ := run_append.mp hrun'
  obtain rfl := Option.some.inj (hv.symm.trans hv')
  obtain ⟨x, hsends, hrest⟩ := run_cons.mp hrest
  have hsameBefore : ∀ node sub, .connect k node sub ∉ before := fun node sub hmem =>
    hsame node sub (List.mem_append_left _ hmem)
  have hsameAfter : ∀ node sub, .connect k node sub ∉ after := fun node sub hmem =>
    hsame node sub (List.mem_append_right _ (List.mem_cons_of_mem _ hmem))
  obtain ⟨sofar, hthen⟩ := subscribed_of_run hread hstart hc hsub hfollows hv hsameBefore hcv
  have hwoken := hthen.follows
  rw [hstage] at hwoken
  refine ⟨hwoken.1.1, ?_⟩
  obtain ⟨cx, hcx⟩ := exists_of_run hrest hsameAfter hd
  obtain ⟨f, hheard, hx, hturn⟩ :=
    hthen.turn (fun _ => True) v.node.current (fun _ h => h.2) hstage
  have hnext : cx = cv.turn v.node.current cur sent := by
    rcases next_of_step hsends hcv hthen.follows.subscribes with hnone | ⟨d', hd', hnext⟩
    · rw [hnone] at hcx
      cases hcx
    · obtain rfl := Option.some.inj (hcx.symm.trans hd')
      cases hnext with
      | same hne => exact absurd rfl hne
      | sends hs =>
        obtain ⟨rfl, rfl⟩ := ConnStage.weighs.inj (hstage.symm.trans hs)
        rfl
  subst hnext
  obtain ⟨later, hlater, hend⟩ := heard_of_run hcx hx.follows.subscribes hrest hsameAfter hd
  -- the frames since are those after this turn's
  have hframes : frames.map Heard.frame = (sofar ++ [f]).map .frame ++ later := by
    apply List.append_cancel_left
    show c.heard ++ _ = c.heard ++ _
    rw [← h.heard, hlater, hx.heard, List.append_assoc]
  obtain ⟨first, rest, rfl, hfirst, hrest'⟩ := List.map_eq_append_iff.mp hframes
  obtain rfl : first = sofar ++ [f] := List.map_injective_iff.mpr (fun _ _ => Heard.frame.inj) hfirst
  refine ⟨sofar, f, rest, by simp, ?_, fun horderly hbad => ?_⟩
  · rcases hturn with hturn | hturn
    · exact .inl hturn.1
    · exact .inr hturn.2.1
  · rcases hturn with ⟨hrefuses, hdone⟩ | ⟨-, -, hfresh, hbans, hholds⟩
    · refine ⟨hrefuses, ?_⟩
      rw [hend hdone] at hrest'
      exact List.map_eq_nil_iff.mp hrest'
    · exfalso
      rcases hbad with hbad | hbad
      · exact hfresh hbad
      · have hasks := horderly before _ after v rfl hv cv cur sent hcv hstage hfresh
          (hthen.node ▸ hbans) (hthen.node ▸ hbad)
        rw [hthen.node, hholds] at hasks
        cases hasks

end

end Directory

namespace Directory

section Sample

attribute [local instance] Crypto.plain

/-- Version 3 names it again. -/
def heldThird : Held (nodeId sampleRoot) := versionHeld 3 (sampleNode 2) (by decide)

theorem names_heldThird : names heldThird (sampleNode 2) = true := by decide

/-- Node 2 comes to subscribe, as the policy of version 1 lets it. -/
def sampleSubscribing : List (ServeEvent Bool Unit) :=
  [.connect () (sampleNode 2) true, .subOpening () (.ok (.hello none)) 5, .named (),
    .verified () (.error (.rejected "")) true]

theorem run_sampleSubscribing (file : PolicyFile) : ∃ s t : Served (nodeId sampleRoot) Bool Unit,
    run (Served.step "policy.json" (3 : UInt8) 1) (.start file (some heldFirst)) sampleSubscribing =
      some s ∧
    s.step "policy.json" (3 : UInt8) 1 (.subscribe () (.subscribe 0) true) = some t ∧
    t.node = .start file (some heldFirst) ∧
    t.conns () = some ⟨sampleNode 2, true, .follows 0, []⟩ := by
  simp only [sampleSubscribing, run, Served.step, Served.start, Served.goes, Node.start,
    Conn.goes, Conn.admitting, Conn.known, Conn.subscribed, admitPeer, holdsWhole, Peer.admitted,
    names_heldFirst, Function.update_self, Option.bind_some, Option.map_some, Option.any_some,
    Bool.true_or, if_true]
  exact ⟨_, _, rfl, rfl, rfl, rfl⟩

/-- Version 2 is announced and read, and version 3 announced before the turn. -/
def sampleTurn : List (ServeEvent Bool Unit) :=
  (announcing false 2 (sampleNode 4)).map .node ++
    .wakes () :: ((announcing true 3 (sampleNode 2)).map .node ++ [.sends ()])

theorem run_sampleTurn {file : PolicyFile}
    (hread : read "policy.json" (nodeId sampleRoot) file = .ok (some heldFirst))
    {t : Served (nodeId sampleRoot) Bool Unit} (hnode : t.node = .start file (some heldFirst))
    (hconn : t.conns () = some ⟨sampleNode 2, true, .follows 0, []⟩) :
    ∃ (u : Served (nodeId sampleRoot) Bool Unit) (w : Fresh),
      run (Served.step "policy.json" (3 : UInt8) 1) t sampleTurn = some u ∧
      u.conns () = some ⟨sampleNode 2, true, .follows 2, [.frame (.policy heldSecond.signed w)]⟩ := by
  obtain ⟨w, hw⟩ := signFresh_heldSecond
  obtain ⟨m, hm, hcur, hwriter, hlock, hfile, hothers⟩ :=
    run_announcing (n := t.node) false (by decide : (samplePolicy 2 [sampleNode 4]).validate = .ok ())
      (by rw [hnode]; rfl) (by rw [hnode]; rfl) (by rw [hnode]; rfl) (by rw [hnode]; rfl)
      (by rw [hnode]; rfl) (by rw [hnode]; exact hread) (by decide)
  obtain ⟨hcalls, hstore⟩ := hothers true (by decide)
  obtain ⟨m', hm', hcur', -⟩ :=
    run_announcing (n := m) true (by decide : (samplePolicy 3 [sampleNode 2]).validate = .ok ())
      (by rw [hcalls, hnode]; rfl) (by rw [hstore, hnode]; rfl) hlock hwriter hcur hfile (by decide)
  have hnever : ∀ i version host, (.opens : NodeEvent Bool) ∉ announcing i version host :=
    fun i version host => by simp [announcing, accepting]
  let woken : Served (nodeId sampleRoot) Bool Unit := Served.goes { t with node := m } ()
    ⟨sampleNode 2, true, .weighs ⟨heldSecond, some w⟩ 0, []⟩
  have hturn : (⟨sampleNode 2, true, .weighs ⟨heldSecond, some w⟩ 0, []⟩ :
      Conn (nodeId sampleRoot) Bool).turn m'.current ⟨heldSecond, some w⟩ 0 =
      ⟨sampleNode 2, true, .follows 2, [.frame (.policy heldSecond.signed w)]⟩ := by
    have hbans : heldSecond.policy.bansNode (sampleNode 2) = false := by decide
    have hholds : holdsWhole m'.current (sampleNode 2) = true := by
      rw [hcur']
      exact names_heldThird
    simp only [Conn.turn, hbans, hholds, Bool.false_eq_true, Bool.true_eq_false, if_false]
    rfl
  have hannounced := run_nodes 1 hm (hnever false 2 (sampleNode 4))
  have hwoken : ({ t with node := m } : Served (nodeId sampleRoot) Bool Unit).step "policy.json"
      (3 : UInt8) 1 (.wakes ()) = some woken := by
    have hfresh : signFresh (3 : UInt8) (versionHeld 2 (sampleNode 4) (by decide)) 5 = some w := hw
    simp only [Served.step, hconn, hcur, hfresh]
    rfl
  have hagain := run_nodes 1 (s := woken) hm' (hnever true 3 (sampleNode 2))
  have hsent : ({ woken with node := m' } : Served (nodeId sampleRoot) Bool Unit).step "policy.json"
      (3 : UInt8) 1 (.sends ()) = some (Served.goes { woken with node := m' } ()
        ⟨sampleNode 2, true, .follows 2, [.frame (.policy heldSecond.signed w)]⟩) := by
    simp only [woken, Served.step, Served.goes, Function.update_self, hturn]
  refine ⟨_, w, run_append.mpr ⟨_, hannounced, run_cons.mpr ⟨_, hwoken,
    run_concat.mpr ⟨_, hagain, hsent⟩⟩⟩, ?_⟩
  rw [Served.conns_goes, if_pos rfl]

theorem validate_naming : (samplePolicy 2 [sampleNode 2]).validate = .ok () := by decide

/-- A version 2 that does name it. -/
def heldNaming : Held (nodeId sampleRoot) := versionHeld 2 (sampleNode 2) validate_naming

theorem names_heldNaming : names heldNaming (sampleNode 2) = true := by decide

theorem signFresh_heldNaming : ∃ w, signFresh (3 : UInt8) heldNaming 5 = some w :=
  Option.isSome_iff_exists.mp (by decide)

/-- It is announced, read and sent, then a version 3 that does not name the subscriber. -/
def sampleTurns : List (ServeEvent Bool Unit) :=
  ((announcing false 2 (sampleNode 2)).map .node ++ [.wakes (), .sends ()]) ++
    ((announcing true 3 (sampleNode 4)).map .node ++ [.wakes (), .sends ()])

theorem connect_notMem_sampleTurns (node : NodeId) (sub : Bool) :
    .connect () node sub ∉ sampleTurns := by
  simp [sampleTurns, announcing, accepting]

/-- A subscription is woken after an announcement and has its turn at once. -/
theorem run_turn {t : Served (nodeId sampleRoot) Bool Unit} {es : List (NodeEvent Bool)}
    {m : Node (nodeId sampleRoot) Bool} {cur : Current (nodeId sampleRoot)} {sent : StateVersion}
    {heard : List Heard} (hconn : t.conns () = some ⟨sampleNode 2, true, .follows sent, heard⟩)
    (hm : run (Node.step "policy.json" (3 : UInt8)) t.node es = some m) (hopens : .opens ∉ es)
    (hcur : m.current = some cur) :
    ∃ u : Served (nodeId sampleRoot) Bool Unit,
      run (Served.step "policy.json" (3 : UInt8) 1) t (es.map .node ++ [.wakes (), .sends ()]) = some u ∧
      u.node = m ∧
      u.conns () = some ((⟨sampleNode 2, true, .weighs cur sent, heard⟩ :
        Conn (nodeId sampleRoot) Bool).turn m.current cur sent) ∧
      (∃ v : Served (nodeId sampleRoot) Bool Unit,
        run (Served.step "policy.json" (3 : UInt8) 1) t (es.map .node ++ [.wakes ()]) = some v ∧
        v.conns () = some ⟨sampleNode 2, true, .weighs cur sent, heard⟩) ∧
      Along (Served.step "policy.json" (3 : UInt8) 1) (Orderly ()) t
        (es.map .node ++ [.wakes (), .sends ()]) := by
  let woken : Served (nodeId sampleRoot) Bool Unit := Served.goes { t with node := m } ()
    ⟨sampleNode 2, true, .weighs cur sent, heard⟩
  have hannounced := run_nodes 1 hm hopens
  have hwoken : ({ t with node := m } : Served (nodeId sampleRoot) Bool Unit).step "policy.json"
      (3 : UInt8) 1 (.wakes ()) = some woken := by
    simp only [Served.step, hconn, hcur]
    rfl
  have hsent : woken.step "policy.json" (3 : UInt8) 1 (.sends ()) = some (woken.goes ()
      ((⟨sampleNode 2, true, .weighs cur sent, heard⟩ : Conn (nodeId sampleRoot) Bool).turn
        m.current cur sent)) := by
    simp only [woken, Served.step, Served.goes, Function.update_self]
  have hconn' : woken.conns () = some ⟨sampleNode 2, true, .weighs cur sent, heard⟩ := by
    rw [Served.conns_goes, if_pos rfl]
  refine ⟨_, run_append.mpr ⟨_, hannounced, run_cons.mpr ⟨_, hwoken, run_cons.mpr ⟨_, hsent, rfl⟩⟩⟩,
    rfl, by rw [Served.conns_goes, if_pos rfl], ⟨woken, run_concat.mpr ⟨_, hannounced, hwoken⟩, hconn'⟩,
    along_append.mpr ⟨along_of_forall ?_, ?_⟩⟩
  · intro e he u
    obtain ⟨n, -, rfl⟩ := List.mem_map.mp he
    trivial
  · intro u hu
    obtain rfl := Option.some.inj (hannounced.symm.trans hu)
    refine ⟨trivial, fun v hv => ⟨?_, fun _ _ => trivial⟩⟩
    obtain rfl := Option.some.inj (hwoken.symm.trans hv)
    -- what is asked is what was read
    rintro c cur' sent' hc hstage - - hunnamed
    obtain rfl := Option.some.inj (hconn'.symm.trans hc)
    obtain ⟨rfl, rfl⟩ := ConnStage.weighs.inj hstage
    change (m.current.any fun c => names c.held (sampleNode 2)) = false
    rw [hcur]
    exact hunnamed

/-- The subscriber is refused at its second turn, and is sent nothing after. -/
theorem subscription_sample : ∃ (file : PolicyFile) (sofar : List SubFrame) (f : SubFrame),
    f.Refuses ∧ Fed (Vouched "policy.json" (3 : UInt8) 1 file (some heldFirst)
      (sampleSubscribing ++ .subscribe () (.subscribe 0) true :: sampleTurns)) 0 (sofar ++ [f]) := by
  have hread : read "policy.json" (nodeId sampleRoot)
      (.text (policyText (versionOffer 1 (sampleNode 2)).policy)) = .ok (some heldFirst) :=
    read_versionOffer (by decide)
  obtain ⟨s, t, hrun, hstep, hnode, hconn⟩ := run_sampleSubscribing
    (.text (policyText (versionOffer 1 (sampleNode 2)).policy))
  have hnever : ∀ i version host, (.opens : NodeEvent Bool) ∉ announcing i version host :=
    fun i version host => by simp [announcing, accepting]
  -- version 2 names the subscriber
  obtain ⟨m, hm, hcur, hwriter, hlock, hfile, hothers⟩ :=
    run_announcing (n := t.node) false (by decide : (samplePolicy 2 [sampleNode 2]).validate = .ok ())
      (by rw [hnode]; rfl) (by rw [hnode]; rfl) (by rw [hnode]; rfl) (by rw [hnode]; rfl)
      (by rw [hnode]; rfl) (by rw [hnode]; exact hread) (by decide)
  obtain ⟨u, hu, hunode, huconn, -, hualong⟩ :=
    run_turn hconn hm (hnever false 2 (sampleNode 2)) hcur
  obtain ⟨w, hw⟩ := signFresh_heldNaming
  have hturn : ∃ heard, u.conns () = some ⟨sampleNode 2, true, .follows 2, heard⟩ := by
    have hbans : heldNaming.policy.bansNode (sampleNode 2) = false := by decide
    have hholds : holdsWhole m.current (sampleNode 2) = true := by
      rw [hcur]
      exact names_heldNaming
    change signFresh (3 : UInt8) (versionHeld 2 (sampleNode 2) (by decide)) 5 = some w at hw
    rw [huconn, hw]
    exact ⟨_, congrArg some (show Conn.turn _ m.current ⟨heldNaming, some w⟩ 0 = _ by
      simp only [Conn.turn, hbans, hholds, Bool.false_eq_true, Bool.true_eq_false, if_false]
      rfl)⟩
  obtain ⟨heard, hturn⟩ := hturn
  -- version 3 does not
  obtain ⟨hcalls, hstore⟩ := hothers true (by decide)
  obtain ⟨m', hm', hcur', -⟩ :=
    run_announcing (n := u.node) true (by decide : (samplePolicy 3 [sampleNode 4]).validate = .ok ())
      (by rw [hunode, hcalls, hnode]; rfl) (by rw [hunode, hstore, hnode]; rfl) (by rw [hunode, hlock])
      (by rw [hunode, hwriter]) (by rw [hunode, hcur]) (by rw [hunode, hfile]) (by decide)
  obtain ⟨v, hv, -, hvconn, ⟨z, hz, hzconn⟩, hvalong⟩ :=
    run_turn hturn hm' (hnever true 3 (sampleNode 4)) hcur'
  have halong : Along (Served.step "policy.json" (3 : UInt8) 1) (Orderly ()) t sampleTurns := by
    refine along_append.mpr ⟨hualong, fun x hx => ?_⟩
    obtain rfl := Option.some.inj (hu.symm.trans hx)
    exact hvalong
  obtain ⟨frames, -, hfed, hturns⟩ := subscription hread hrun hstep hconn rfl
    (run_append.mpr ⟨u, hu, hv⟩) connect_notMem_sampleTurns hvconn
  obtain ⟨-, sofar, f, later, rfl, -, hrefused⟩ := hturns
    ((announcing false 2 (sampleNode 2)).map .node ++ [.wakes (), .sends ()] ++
      ((announcing true 3 (sampleNode 4)).map .node ++ [.wakes ()])) [] z _ _ _ (by simp)
    (run_append.mpr ⟨u, hu, hz⟩) hzconn rfl
  obtain ⟨hrefuses, rfl⟩ := hrefused (along_iff.mp halong) (.inr (by decide))
  exact ⟨_, sofar, f, hrefuses, hfed⟩

/-- A turn that reads a policy that does not name its subscriber, and sends it that policy. -/
theorem sent_unnamed : ∃ (file : PolicyFile) (s t u : Served (nodeId sampleRoot) Bool Unit)
    (w : Fresh) (cur : Current (nodeId sampleRoot)),
    read "policy.json" (nodeId sampleRoot) file = .ok (some heldFirst) ∧
    run (Served.step "policy.json" (3 : UInt8) 1) (.start file (some heldFirst)) sampleSubscribing =
      some s ∧
    s.step "policy.json" (3 : UInt8) 1 (.subscribe () (.subscribe 0) true) = some t ∧
    run (Served.step "policy.json" (3 : UInt8) 1) t sampleTurn = some u ∧
    names cur.held (sampleNode 2) = false ∧
    u.conns () = some ⟨sampleNode 2, true, .follows 2, [.frame (.policy cur.held.signed w)]⟩ := by
  have hread : read "policy.json" (nodeId sampleRoot)
      (.text (policyText (versionOffer 1 (sampleNode 2)).policy)) = .ok (some heldFirst) :=
    read_versionOffer (by decide)
  obtain ⟨s, t, hrun, hstep, hnode, hconn⟩ := run_sampleSubscribing
    (.text (policyText (versionOffer 1 (sampleNode 2)).policy))
  obtain ⟨u, w, hturn, hheard⟩ := run_sampleTurn hread hnode hconn
  exact ⟨_, s, t, u, w, ⟨heldSecond, some w⟩, hread, hrun, hstep, hturn, names_heldSecond, hheard⟩

end Sample

end Directory

end Wires
