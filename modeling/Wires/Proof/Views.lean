import Wires.Framework.Run
import Wires.Impl.Views
import Wires.Proof.History

/-!
# When a web user's view never goes back

`Asks.Steps` says once what a step of an ask can do. Where no other ask has
stored or dropped a token's view since an ask read it, that view is the one the
ask's answer is compared with (`Good`). So if every view is stored so, none is
older than the one it takes the place of, and none is stored by an ask that read
before a refusal (`views_hold`). Two asks that read before either stores can
bring them in the wrong order (`rolls_back`).
-/

namespace Wires

/-- Whether an ask waits for the directories. -/
def AskStage.Fetches [Crypto] {root : NodeId} : AskStage root → Prop
  | .fetches .. => True
  | _ => False

namespace Asks

section

variable [Crypto] {root : NodeId} {ι : Type} [DecidableEq ι] {s t u : Asks root ι} {e : AskEvent ι}

/-! ## Steps -/

/-- Every view of `w` is one of `v`. -/
def Pruned (v w : Views root) : Prop :=
  w.known = v.known ∧ ∀ token a, w.held token = some a → v.held token = some a

theorem pruned_cached (v : Views root) (token : IdToken) (now : Int64) :
    Pruned v (v.cached token now).1 :=
  ⟨rfl, fun _ _ h => (Option.filter_eq_some_iff.mp h).1⟩

/-- What a step can do. -/
inductive Steps (s : Asks root ι) : AskEvent ι → Asks root ι → Prop
  | moves {e : AskEvent ι} {views : Views root} {i : ι} {a : AskStage root}
    (hp : Pruned s.views views) (ha : ¬a.Fetches) : Steps s e { s.goes i a with views }
  | reads {i : ι} {now : Int64} {token : IdToken} {notAfter : Int64} {goal : AskFor root}
    {views : Views root} (hp : Pruned s.views views) : Steps s (.read i now) { s.goes i
      (.fetches token notAfter goal ((views.held token).map (·.held)) (s.writes token)) with views }
  | stores {i : ι} {f : Fetch} {at_ : Nat} {token : IdToken} {notAfter : Int64} {goal : AskFor root}
    {base : Option (HeldView root)} {began : Nat} {view : HeldView root} {a : AskStage root}
    (hi : s.stage i = .fetches token notAfter goal base began)
    (hview : fetched s.views.known base f = .ok view) (ha : ¬a.Fetches) :
    Steps s (.answer i f at_) { s.goes i a with
      views := { s.views with
        held := Function.update s.views.held token (some ⟨view, at_, notAfter⟩) }
      writes := Function.update s.writes token (s.writes token + 1) }
  | drops {i : ι} {f : Fetch} {at_ : Nat} {token : IdToken} {notAfter : Int64} {goal : AskFor root}
    {base : Option (HeldView root)} {began : Nat} {why : Anyhow} {a : AskStage root}
    (hi : s.stage i = .fetches token notAfter goal base began)
    (herror : fetched s.views.known base f = .error why) (hwhy : Views.isNotAdmitted why = true)
    (ha : ¬a.Fetches) : Steps s (.answer i f at_) { s.goes i a with
      views := { s.views with held := Function.update s.views.held token none }
      writes := Function.update s.writes token (s.writes token + 1) }

theorem steps_of_step (h : s.step e = some t) : s.Steps e t := by
  cases e with
  | refresh i token notAfter =>
    simp only [step] at h
    split at h
    · obtain rfl := Option.some.inj h
      exact @Steps.moves _ _ _ _ s _ s.views _ _ ⟨rfl, fun _ _ h => h⟩ id
    · cases h
  | view i token notAfter now at_ =>
    simp only [step] at h
    split at h
    · split at h
      · obtain rfl := Option.some.inj h
        exact .moves (pruned_cached s.views token now) id
      · obtain rfl := Option.some.inj h
        exact .moves (pruned_cached s.views token now) id
    · cases h
  | read i now =>
    simp only [step] at h
    split at h
    · rename_i token notAfter goal hi
      obtain rfl := Option.some.inj h
      exact .reads (pruned_cached s.views token now)
    · cases h
  | answer i f at_ =>
    simp only [step] at h
    split at h
    · rename_i token notAfter goal base began hi
      obtain rfl := Option.some.inj h
      cases hr : fetched s.views.known base f with
      | ok view => exact .stores hi hr id
      | error why =>
        by_cases hwhy : Views.isNotAdmitted why = true
        · simp only [Views.answered, Views.isWritten, hwhy, if_true]
          exact .drops hi hr hwhy id
        · simp only [Views.answered, Views.isWritten, hwhy]
          exact @Steps.moves _ _ _ _ s _ s.views _ _ ⟨rfl, fun _ _ h => h⟩ id
    · cases h

/-! ## Writes -/

/-- The asks that wait: each read before the writes since, and the view it read is the one held,
where there were none. -/
def Good (s : Asks root ι) : Prop := ∀ i token notAfter goal base began,
  s.stage i = .fetches token notAfter goal base began → began ≤ s.writes token ∧
    (began = s.writes token → ∀ u, s.views.held token = some u → base = some u.held)

omit [DecidableEq ι] in
theorem good_start (known : List NodeId) : Good (start known : Asks root ι) :=
  nofun

/-- An ask other than the one that goes on has the stage it had. -/
theorem stage_of_fetches {i j : ι} {a b : AskStage root} (ha : ¬a.Fetches) (hb : b.Fetches)
    (h : Function.update s.stage i a j = b) : s.stage j = b := by
  by_cases hj : j = i
  · subst hj
    rw [Function.update_self] at h
    exact absurd (h ▸ hb) ha
  · rwa [Function.update_of_ne hj] at h

/-- A token's view is written: no ask that has read it since waits. -/
theorem Good.written (hg : Good s) (token : IdToken) (held : Option (UserView root)) {i : ι}
    {a : AskStage root} (ha : ¬a.Fetches) : Good { s.goes i a with
      views := { s.views with held := Function.update s.views.held token held }
      writes := Function.update s.writes token (s.writes token + 1) } := by
  intro j token' notAfter goal base began hj
  obtain ⟨hle, hbase⟩ := hg j token' notAfter goal base began (stage_of_fetches ha trivial hj)
  by_cases ht : token' = token
  · subst ht
    simp only [Function.update_self]
    exact ⟨hle.trans (Nat.le_succ _), fun heq => by omega⟩
  · simp only [Function.update_of_ne ht]
    exact ⟨hle, hbase⟩

theorem Good.step (hg : Good s) (hs : s.step e = some t) : Good t := by
  cases steps_of_step hs with
  | @moves _ views i a hp ha =>
    intro j token notAfter goal base began hj
    obtain ⟨hle, hbase⟩ := hg j token notAfter goal base began (stage_of_fetches ha trivial hj)
    exact ⟨hle, fun heq u hu => hbase heq u (hp.2 token u hu)⟩
  | @reads i now token notAfter goal views hp =>
    intro j token' notAfter' goal' base' began' hj
    by_cases hji : j = i
    · subst hji
      have hj := (Function.update_self j _ s.stage).symm.trans hj
      obtain ⟨rfl, rfl, rfl, rfl, rfl⟩ := AskStage.fetches.inj hj
      refine ⟨le_rfl, fun _ u hu => ?_⟩
      have hu : views.held token = some u := hu
      rw [hu]
      rfl
    · obtain ⟨hle, hbase⟩ := hg j token' notAfter' goal' base' began'
        ((Function.update_of_ne hji _ s.stage).symm.trans hj)
      exact ⟨hle, fun heq u hu => hbase heq u (hp.2 token' u hu)⟩
  | stores _ _ ha => exact hg.written _ _ ha
  | drops _ _ _ ha => exact hg.written _ _ ha

theorem writes_le (hs : s.step e = some t) (token : IdToken) : s.writes token ≤ t.writes token := by
  have hwritten : ∀ token', s.writes token ≤
      Function.update s.writes token' (s.writes token' + 1) token := by
    intro token'
    by_cases ht : token = token'
    · subst ht
      rw [Function.update_self]
      exact Nat.le_succ _
    · rw [Function.update_of_ne ht]
  cases steps_of_step hs with
  | moves => exact le_rfl
  | reads => exact le_rfl
  | stores => exact hwritten _
  | drops => exact hwritten _

/-- An ask that does not read goes on from what it read before. -/
theorem stage_of_not_read {i : ι} {a : AskStage root} (ha : a.Fetches) {es : List (AskEvent ι)}
    (hread : ∀ now, .read i now ∉ es) (h : run step s es = some t) (ht : t.stage i = a) :
    s.stage i = a := by
  induction es generalizing s with
  | nil =>
    obtain rfl := run_nil.mp h
    exact ht
  | cons e es ih =>
    obtain ⟨u, hu, hrest⟩ := run_cons.mp h
    have hi : u.stage i = a := ih (fun now hmem => hread now (List.mem_cons_of_mem _ hmem)) hrest
    cases steps_of_step hu with
    | moves _ ha' => exact stage_of_fetches ha' ha hi
    | @reads j now =>
      have hj : i ≠ j := by
        rintro rfl
        exact hread now List.mem_cons_self
      exact (Function.update_of_ne hj _ s.stage).symm.trans hi
    | stores _ _ ha' => exact stage_of_fetches ha' ha hi
    | drops _ _ _ ha' => exact stage_of_fetches ha' ha hi

/-! ## Views that last -/

/-- Ask `i`, for `token`, is given the view. -/
def Brings (s : Asks root ι) (i : ι) (f : Fetch) (token : IdToken) (view : HeldView root) : Prop :=
  ∃ notAfter goal base began, s.stage i = .fetches token notAfter goal base began ∧
    fetched s.views.known base f = .ok view

/-- Ask `i`, for `token`, hears that the node is not admitted. -/
def Refuses (s : Asks root ι) (i : ι) (f : Fetch) (token : IdToken) : Prop :=
  ∃ notAfter goal base began why, s.stage i = .fetches token notAfter goal base began ∧
    fetched s.views.known base f = .error why ∧ Views.isNotAdmitted why = true

/-- Where an ask is given a view, no ask for its token has stored or dropped one since it read. -/
def Undisturbed (s : Asks root ι) : AskEvent ι → Prop
  | .answer i f _ => ∀ token notAfter goal base began view,
    s.stage i = .fetches token notAfter goal base began →
      fetched s.views.known base f = .ok view → began = s.writes token
  | _ => True

omit [DecidableEq ι] in
theorem version_le_of_fetched {known : List NodeId} {base : Option (HeldView root)} {f : Fetch}
    {view old : HeldView root} (h : fetched known base f = .ok view) (hbase : base = some old) :
    old.version ≤ view.version := by
  unfold fetched at h
  split_ifs at h
  exact (offered_of_fetch h).2 old hbase

/-- One step. -/
theorem version_le_of_step (hg : Good s) (hc : s.Undisturbed e) (hs : s.step e = some t)
    {token : IdToken} {a b : UserView root} (ha : s.views.held token = some a)
    (hb : t.views.held token = some b) : a.held.version ≤ b.held.version := by
  have hkept : s.views.held token = some b → a.held.version ≤ b.held.version := by
    intro hb
    obtain rfl := Option.some.inj (ha.symm.trans hb)
    exact le_rfl
  cases steps_of_step hs with
  | moves hp => exact hkept (hp.2 token b hb)
  | reads hp => exact hkept (hp.2 token b hb)
  | @stores i f at_ token' notAfter goal base began view stage hi hview =>
    by_cases ht : token = token'
    · subst ht
      have hbegan := hc token notAfter goal base began view hi hview
      have hbase := (hg i token notAfter goal base began hi).2 hbegan a ha
      obtain rfl := Option.some.inj ((Function.update_self token _ s.views.held).symm.trans hb)
      exact version_le_of_fetched hview hbase
    · exact hkept ((Function.update_of_ne ht _ s.views.held).symm.trans hb)
  | @drops i f at_ token' =>
    by_cases ht : token = token'
    · subst ht
      cases (Function.update_self token _ s.views.held).symm.trans hb
    · exact hkept ((Function.update_of_ne ht _ s.views.held).symm.trans hb)

/-- A refusal is a write, and the ask that hears it waits no more. -/
theorem Refuses.writes_lt {i j : ι} {f : Fetch} {at_ : Nat} {token : IdToken}
    {a : AskStage root} (hr : s.Refuses i f token) (hs : s.step (.answer i f at_) = some t)
    (ha : a.Fetches) (hj : t.stage j = a) : s.stage j = a ∧ s.writes token < t.writes token := by
  obtain ⟨notAfter, goal, base, began, why, hi, herror, hwhy⟩ := hr
  simp only [step, hi, herror, Views.isWritten, hwhy, if_true] at hs
  obtain rfl := Option.some.inj hs
  refine ⟨stage_of_fetches id ha hj, ?_⟩
  show s.writes token < Function.update s.writes token (s.writes token + 1) token
  rw [Function.update_self]
  exact Nat.lt_succ_self _

/-- The events bring the asks of a gateway that has started to `s`. -/
def Reaches (known : List NodeId) (es : List (AskEvent ι)) (s : Asks root ι) : Prop :=
  run step (start known) es = some s

theorem good_of_reaches {known : List NodeId} {es : List (AskEvent ι)} (h : Reaches known es s) :
    Good s :=
  run_invariant (fun _ _ _ hg he => hg.step he) (good_start known) h

variable (root) in
/-- In every run in which no ask stores a view where another, for the same token, has stored or
dropped one since it read: no view held is followed by an older one; and an ask that is given one after
a refusal dropped the token's has read since. -/
theorem views_hold (known : List NodeId) (es : List (AskEvent ι))
    (hc : ∀ before e after, es = before ++ e :: after →
      ∀ t : Asks root ι, Reaches known before t → t.Undisturbed e) :
    (∀ before e after, es = before ++ e :: after →
      ∀ t u : Asks root ι, Reaches known before t → t.step e = some u →
      ∀ token a b, t.views.held token = some a → u.views.held token = some b →
        a.held.version ≤ b.held.version) ∧
    ∀ before i f at_ between j g at' after,
      es = before ++ .answer i f at_ :: (between ++ .answer j g at' :: after) →
      ∀ t u : Asks root ι, Reaches known before t →
      Reaches known (before ++ .answer i f at_ :: between) u →
      ∀ token view, t.Refuses i f token → u.Brings j g token view →
        ∃ now, .read j now ∈ between := by
  refine ⟨fun before e after heq t u ht hu token a b ha hb => ?_,
    fun before i f at_ between j g at' after heq t u ht hu token view hr hb => ?_⟩
  · exact version_le_of_step (good_of_reaches ht) (hc before e after heq t ht) hu ha hb
  · by_contra hread
    rw [not_exists] at hread
    obtain ⟨notAfter, goal, base, began, hj, hview⟩ := hb
    have hbegan : began = u.writes token :=
      hc (before ++ .answer i f at_ :: between) (.answer j g at') after (by simp [heq]) u hu
        token notAfter goal base began view hj hview
    obtain ⟨t', ht', hrun⟩ := run_append.mp hu
    obtain rfl := Option.some.inj (ht.symm.trans ht')
    obtain ⟨v, hv, hrun⟩ := run_cons.mp hrun
    have hwaits : (AskStage.fetches token notAfter goal base began).Fetches := trivial
    have hjv := stage_of_not_read hwaits hread hrun hj
    obtain ⟨hjt, hwrote⟩ := hr.writes_lt hv hwaits hjv
    have hle : v.writes token ≤ u.writes token :=
      run_le (P := fun _ => True) (fun _ _ _ _ _ => trivial) (fun _ _ _ _ he => writes_le he token)
        trivial hrun
    have hbound := ((good_of_reaches ht) j token notAfter goal base began hjt).1
    omega

/-- What an answer brings, or refuses, is stored, or dropped, and the other asks wait on. -/
theorem exists_step_answer {i : ι} {f : Fetch} {at_ : Nat} {token : IdToken} {notAfter : Int64}
    {goal : AskFor root} {base : Option (HeldView root)} {began : Nat}
    (hi : s.stage i = .fetches token notAfter goal base began) :
    ∃ t, s.step (.answer i f at_) = some t ∧
      t.views = s.views.answered token notAfter at_ (fetched s.views.known base f) ∧
      ∀ j, j ≠ i → t.stage j = s.stage j := by
  refine ⟨_, by simp only [step, hi]; rfl, rfl, fun j hj => ?_⟩
  exact Function.update_of_ne hj _ s.stage

/-- A view that is brought is stored. -/
theorem exists_step_brings {i : ι} {f : Fetch} (at_ : Nat) {token : IdToken} {notAfter : Int64}
    {goal : AskFor root} {base : Option (HeldView root)} {began : Nat} {view : HeldView root}
    (hi : s.stage i = .fetches token notAfter goal base began)
    (hf : fetched s.views.known base f = .ok view) :
    ∃ t, s.step (.answer i f at_) = some t ∧ t.views.known = s.views.known ∧
      t.views.held token = some ⟨view, at_, notAfter⟩ ∧ t.writes token = s.writes token + 1 ∧
      ∀ j, j ≠ i → t.stage j = s.stage j := by
  have hstep : s.step (.answer i f at_) = some { s.goes i (.done (goal.answer (.ok view))) with
      views := s.views.answered token notAfter at_ (.ok view)
      writes := Function.update s.writes token (s.writes token + 1) } := by
    simp only [step, hi, hf]
    rfl
  refine ⟨_, hstep, rfl, Function.update_self token _ s.views.held,
    Function.update_self token _ s.writes, fun j hj => ?_⟩
  exact Function.update_of_ne hj _ s.stage

/-- An ask reads the view held, if it has not expired. -/
theorem exists_step_read {i : ι} (now : Int64) {token : IdToken} {notAfter : Int64}
    {goal : AskFor root} {v : UserView root} (hi : s.stage i = .asks token notAfter goal)
    (hv : s.views.held token = some v) (hnow : v.notAfter ≥ now) :
    ∃ t, s.step (.read i now) = some t ∧ t.views.known = s.views.known ∧
      t.views.held token = some v ∧ t.writes = s.writes ∧
      t.stage i = .fetches token notAfter goal (some v.held) (s.writes token) := by
  have hheld : (s.views.cached token now).1.held token = some v := by
    simp only [Views.cached, hv, Option.filter_some, decide_eq_true hnow, if_true]
  have hstep : s.step (.read i now) = some ({ s with views := (s.views.cached token now).1 }.goes i
      (.fetches token notAfter goal ((s.views.cached token now).2.map UserView.held) (s.writes token))) := by
    simp only [step, hi]
  refine ⟨_, hstep, rfl, hheld, rfl, ?_⟩
  refine (Function.update_self i _ s.stage).trans ?_
  rw [show (s.views.cached token now).2 = some v from hheld]
  rfl

omit [DecidableEq ι] in
theorem undisturbed_answer {i : ι} {f : Fetch} {at_ : Nat} {token : IdToken} {notAfter : Int64}
    {goal : AskFor root} {base : Option (HeldView root)} {began : Nat}
    (hi : s.stage i = .fetches token notAfter goal base began) (h : began = s.writes token) :
    s.Undisturbed (.answer i f at_) := by
  intro token' notAfter' goal' base' began' _ hi' _
  obtain ⟨rfl, rfl, rfl, rfl, rfl⟩ := AskStage.fetches.inj (hi.symm.trans hi')
  exact h

end

/-! ## A view that goes back -/

section Sample

attribute [local instance] Crypto.plain

/-- Nothing of the service, under the head of version 1. -/
def viewOne : View := ⟨sampleSigned.head, []⟩

/-- Nothing of the service, under the head of version 2. -/
def viewTwo : View := ⟨sampleEdited.head, []⟩

theorem verify_viewOne : viewOne.verify (nodeId sampleRoot) = .ok () :=
  View.verify_eq_ok.mpr ⟨(SignedPolicy.verify_eq_ok.mp verify_sampleSigned).1, .nil, nofun⟩

theorem verify_viewTwo : viewTwo.verify (nodeId sampleRoot) = .ok () :=
  View.verify_eq_ok.mpr
    ⟨(SignedPolicy.verify_eq_ok.mp (edits_sample.verify sampleEdited (by simp))).1, .nil, nofun⟩

/-- A directory gives an ask that read no view one. -/
theorem exists_fetched {root : NodeId} {view : View} (hv : view.verify root = .ok ())
    (hshown : Vouchable view.head) :
    ∃ (f : Fetch) (h : HeldView root), fetched [] none f = .ok h ∧ h.view = view := by
  obtain ⟨now, turns, h, hfetch, hview⟩ := exists_fetch hv hshown
  exact ⟨⟨now, turns, now, false⟩, h, hfetch, hview⟩

/-- Two asks for one token, which both read before a directory answers either. -/
def sampleAsks : List (AskEvent Bool) :=
  [.refresh false "t" 100, .refresh true "t" 100, .read false 5, .read true 5]

theorem exists_reaches_sampleAsks : ∃ s : Asks (nodeId sampleRoot) Bool,
    Reaches [] sampleAsks s ∧ s.views.known = [] ∧
      ∀ i, s.stage i = .fetches "t" 100 .refresher none 0 :=
  ⟨_, rfl, rfl, fun i => by cases i <;> rfl⟩

/-- The ask that is given version 1 stores it over version 2. -/
theorem exists_older : ∃ (f g : Fetch) (t u : Asks (nodeId sampleRoot) Bool)
    (a b : UserView (nodeId sampleRoot)),
    Reaches [] (sampleAsks ++ [.answer false f 0]) t ∧ t.step (.answer true g 1) = some u ∧
      t.views.held "t" = some a ∧ u.views.held "t" = some b ∧ b.held.version < a.held.version := by
  obtain ⟨f, two, hf, htwo⟩ := exists_fetched verify_viewTwo vouchable_sampleEdited
  obtain ⟨g, one, hg, hone⟩ := exists_fetched verify_viewOne vouchable_sampleSigned
  obtain ⟨s, hs, hknown, hstage⟩ := exists_reaches_sampleAsks
  obtain ⟨t, ht, htknown, htview, -, htj⟩ := exists_step_brings 0 (hstage false) (hknown ▸ hf)
  obtain ⟨u, hu, -, huview, -⟩ := exists_step_brings 1 ((htj true nofun).trans (hstage true))
    (htknown.trans hknown ▸ hg)
  refine ⟨f, g, t, u, _, _, run_concat.mpr ⟨s, hs, ht⟩, hu, htview, huview, ?_⟩
  show one.view.head.head.version < two.view.head.head.version
  rw [hone, htwo]
  decide

/-- The ask that read before the refusal puts a view back after it. -/
theorem exists_put_back : ∃ (f g : Fetch) (t u : Asks (nodeId sampleRoot) Bool)
    (view : HeldView (nodeId sampleRoot)), Reaches [] sampleAsks t ∧ t.Refuses false f "t" ∧
      Reaches [] (sampleAsks ++ [.answer false f 0]) u ∧ u.Brings true g "t" view := by
  obtain ⟨now, turns, why, hrefused⟩ := exists_fetch_refused
    (View.verify_eq_ok.mp verify_viewOne).1 vouchable_sampleSigned none nofun
  obtain ⟨g, one, hg, -⟩ := exists_fetched verify_viewOne vouchable_sampleSigned
  obtain ⟨s, hs, hknown, hstage⟩ := exists_reaches_sampleAsks
  let f : Fetch := ⟨now, turns, now, false⟩
  have hf : @fetched _ (nodeId sampleRoot) s.views.known none f =
      .error ["a directory said this node is not admitted to the network", why] := by
    rw [hknown]
    exact hrefused
  obtain ⟨u, hu, huv, huj⟩ := @exists_step_answer _ _ _ _ s false f 0 _ _ _ _ _ (hstage false)
  have huknown : u.views.known = [] := by
    rw [huv, hf]
    exact hknown
  have hadmitted : Views.isNotAdmitted
      ["a directory said this node is not admitted to the network", why] = true := by
    simp [Views.isNotAdmitted]
  refine ⟨f, g, s, u, one, hs, ⟨100, .refresher, none, 0, _, hstage false, hf, hadmitted⟩,
    run_concat.mpr ⟨s, hs, hu⟩, 100, .refresher, none, 0, (huj true nofun).trans (hstage true), ?_⟩
  rw [huknown]
  exact hg

/-- Two asks that read before either is answered, and are answered in the wrong order: the view held
goes back, and one is put back after a refusal. -/
theorem rolls_back :
    (¬∀ es e, ∀ t u : Asks (nodeId sampleRoot) Bool, Reaches [] es t → t.step e = some u →
      ∀ token a b, t.views.held token = some a → u.views.held token = some b →
        a.held.version ≤ b.held.version) ∧
    ¬∀ before i f at_ between j g,
      ∀ t u : Asks (nodeId sampleRoot) Bool, Reaches [] before t →
      Reaches [] (before ++ .answer i f at_ :: between) u →
      ∀ token view, t.Refuses i f token → u.Brings j g token view →
        ∃ now, .read j now ∈ between := by
  constructor
  · intro hall
    obtain ⟨f, g, t, u, a, b, ht, hu, ha, hb, hlt⟩ := exists_older
    exact hlt.not_ge (hall _ _ t u ht hu "t" a b ha hb)
  · intro hall
    obtain ⟨f, g, t, u, view, ht, hr, hu, hb⟩ := exists_put_back
    obtain ⟨now, hmem⟩ := hall _ _ _ _ [] _ _ t u ht hu "t" view hr hb
    cases hmem

/-- Two asks for one token, of which the second reads what the first has stored. -/
def turnedAsks (f : Fetch) : List (AskEvent Bool) :=
  [.refresh false "t" 100, .refresh true "t" 100, .read false 5] ++ [.answer false f 0, .read true 5]

theorem exists_reaches_turnedAsks {f : Fetch} {one : HeldView (nodeId sampleRoot)}
    (hf : fetched [] none f = .ok one) : ∃ t : Asks (nodeId sampleRoot) Bool,
    Reaches [] (turnedAsks f) t ∧ Along step Undisturbed (start [] : Asks (nodeId sampleRoot) Bool) (turnedAsks f) ∧
      t.views.known = [] ∧ t.views.held "t" = some ⟨one, 0, 100⟩ ∧
      t.stage true = .fetches "t" 100 .refresher (some one) (t.writes "t") := by
  obtain ⟨r, hr, hknown, hfirst, hsecond, hwrites⟩ : ∃ r : Asks (nodeId sampleRoot) Bool,
      Reaches [] [.refresh false "t" 100, .refresh true "t" 100, .read false 5] r ∧ r.views.known = [] ∧
        r.stage false = .fetches "t" 100 .refresher none 0 ∧ r.stage true = .asks "t" 100 .refresher ∧
        r.writes "t" = 0 := ⟨_, rfl, rfl, rfl, rfl, rfl⟩
  obtain ⟨s, hs, hsknown, hsheld, -, hsstage⟩ := exists_step_brings 0 hfirst (hknown ▸ hf)
  obtain ⟨t, ht, htknown, htheld, htwrites, htstage⟩ := exists_step_read 5
    ((hsstage true nofun).trans hsecond) hsheld
    (show (100 : Int64) ≥ 5 by decide)
  refine ⟨t, run_append.mpr ⟨r, hr, run_cons.mpr ⟨s, hs, run_cons.mpr ⟨t, ht, rfl⟩⟩⟩,
    along_append.mpr ⟨?_, fun r' hr' => ⟨?_, fun _ _ => ⟨trivial, fun _ _ => trivial⟩⟩⟩,
    htknown.trans (hsknown.trans hknown), htheld, htwrites ▸ htstage⟩
  · exact ⟨trivial, fun _ _ => ⟨trivial, fun _ _ => ⟨trivial, fun _ _ => trivial⟩⟩⟩
  · obtain rfl := Option.some.inj (hr.symm.trans hr')
    exact undisturbed_answer hfirst hwrites.symm

/-- The second ask stores its view over the first one's. -/
theorem views_hold_sample : ∃ (f : Fetch) (t u : Asks (nodeId sampleRoot) Bool)
    (a b : UserView (nodeId sampleRoot)), Reaches [] (turnedAsks f) t ∧
      t.step (.answer true f 1) = some u ∧ t.views.held "t" = some a ∧ u.views.held "t" = some b ∧
      a.asked < b.asked ∧ a.held.version ≤ b.held.version := by
  obtain ⟨now, turns, one, two, hone, htwo, -, -⟩ :=
    exists_fetch_twice verify_viewTwo vouchable_sampleEdited
  let f : Fetch := ⟨now, turns, now, false⟩
  obtain ⟨t, ht, halong, hknown, hheld, hstage⟩ := exists_reaches_turnedAsks (f := f) hone
  obtain ⟨u, hu, -, huheld, -, -⟩ := @exists_step_brings _ _ _ _ t true f 1 _ _ _ _ _ two hstage
    (by rw [hknown]; exact htwo)
  have hundisturbed : Along step Undisturbed (start [] : Asks (nodeId sampleRoot) Bool)
      (turnedAsks f ++ [.answer true f 1]) := by
    refine along_append.mpr ⟨halong, fun t' ht' => ⟨?_, fun _ _ => trivial⟩⟩
    obtain rfl := Option.some.inj (ht.symm.trans ht')
    exact undisturbed_answer hstage rfl
  refine ⟨f, t, u, _, _, ht, hu, hheld, huheld, Nat.zero_lt_one, ?_⟩
  have hc := fun before e after heq s hs => along_iff.mp hundisturbed before e after s heq hs
  exact (views_hold (nodeId sampleRoot) [] _ hc).1 (turnedAsks f) _ [] rfl t u ht hu "t" _ _ hheld huheld

end Sample

end Asks

end Wires
