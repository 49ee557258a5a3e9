import Wires.Proof.Flow

/-!
# One sign-in, one code, one token

An authorization comes back from the IdP once and gets one code (`Single`), a
code is used up by the first that presents it (`Spent`), and a token that was
given out keeps its session until that expires (`Issued`). With what a token is
given for (`Recorded`), they are kept by every step (`Sound.of_steps`), so they
hold of every run (`flow_safe`).
-/

namespace Wires

namespace OAuth

section

variable [Web] [Origin] [Jose] {β ι : Type} [DecidableEq β] [DecidableEq ι]
  {es fs : List (OAuthEvent β ι)} {e : OAuthEvent β ι} {gw : Gateway} {s t : OAuth β ι}
  {b : β} {id : String} {a : Authorization} {d : Deed β}

/-! ## One code each -/

/-- The authorization that came back. -/
def returned? : Deed β → Option String
  | .returned _ id _ => some id
  | _ => none

/-- The authorization that got a code. -/
def coded? : Deed β → Option String
  | .coded _ id _ => some id
  | _ => none

/-- The code it got. -/
def code? : Deed β → Option String
  | .coded _ _ code => some code
  | _ => none

/-- The authorization that a request is signing in for. -/
def signing : OAuthStage β → Option String
  | .exchanging _ id _ _ _ => some id
  | .viewing _ id _ _ _ => some id
  | _ => none

def under (s : OAuth β ι) (i : ι) : Option String := (s.requests i).bind signing

omit [Origin] [Jose] [DecidableEq β] in
theorem under_goes {i j : ι} {stage : OAuthStage β} :
    (s.goes i stage).under j = if j = i then signing stage else s.under j := by
  rw [under, goes_requests, Function.update_apply]
  split_ifs <;> rfl

omit [Origin] [Jose] in
theorem under_answersIn {i j : ι} {reply : Reply} :
    (s.answersIn i b reply).under j = if j = i then none else s.under j := by
  rw [under, answersIn_requests, Function.update_apply]
  split_ifs <;> rfl

/-- An authorization comes back once, to one request, and gets one code. -/
structure Single (es : List (OAuthEvent β ι)) (s : OAuth β ι) : Prop where
  returned : ∀ id ∈ s.log.filterMap returned?,
    s.store.pending.get? id = none ∧ id ∈ es.filterMap OAuthEvent.id?
  back : ∀ i id, s.under i = some id → id ∈ s.log.filterMap returned?
  alone : ∀ i j id, s.under i = some id → s.under j = some id → i = j
  coded : ∀ id ∈ s.log.filterMap coded?, id ∈ s.log.filterMap returned? ∧ ∀ i, s.under i ≠ some id
  once : (s.log.filterMap coded?).Nodup

omit [Origin] [Jose] [DecidableEq β] [DecidableEq ι] in
theorem mem_ids_append {id : String} (h : id ∈ es.filterMap OAuthEvent.id?) :
    id ∈ (es ++ fs).filterMap OAuthEvent.id? := by
  rw [List.filterMap_append]
  exact List.mem_append_left _ h

omit [Origin] [Jose] [DecidableEq β] [DecidableEq ι] in
/-- A step at which none comes back or gets a code. -/
theorem Single.quiet (h : Single es s) (hreturned : t.log.filterMap returned? = s.log.filterMap returned?)
    (hcoded : t.log.filterMap coded? = s.log.filterMap coded?)
    (hunder : ∀ j, t.under j = s.under j ∨ t.under j = none)
    (hpending : ∀ id ∈ es.filterMap OAuthEvent.id?, s.store.pending.get? id = none →
      t.store.pending.get? id = none) : Single (es ++ fs) t where
  returned id hid := by
    rw [hreturned] at hid
    obtain ⟨hnone, hdrawn⟩ := h.returned id hid
    exact ⟨hpending id hdrawn hnone, mem_ids_append hdrawn⟩
  back i id hi := by
    rw [hreturned]
    rcases hunder i with hsame | hnone
    · exact h.back i id (hsame ▸ hi)
    · rw [hnone] at hi
      cases hi
  alone i j id hi hj := by
    rcases hunder i with hsame | hnone
    · rcases hunder j with hsame' | hnone'
      · exact h.alone i j id (hsame ▸ hi) (hsame' ▸ hj)
      · rw [hnone'] at hj
        cases hj
    · rw [hnone] at hi
      cases hi
  coded id hid := by
    rw [hcoded] at hid
    rw [hreturned]
    obtain ⟨hback, hnot⟩ := h.coded id hid
    refine ⟨hback, fun i hi => ?_⟩
    rcases hunder i with hsame | hnone
    · exact hnot i (hsame ▸ hi)
    · rw [hnone] at hi
      cases hi
  once := by
    rw [hcoded]
    exact h.once

omit [Origin] [Jose] [DecidableEq β] [DecidableEq ι] in
theorem get?_erase_none {m : SortedMap String Authorization} {k x : String} (h : m.get? x = none) :
    (m.erase k).get? x = none := by
  rw [SortedMap.get?_erase]
  split_ifs
  · rfl
  · exact h

theorem Single.of_steps (hu : Unguessable (es ++ [e])) (hr : Recorded gw es s.log)
    (hb : Backed gw es s.log s) (h : Single es s) (hstep : Steps gw s e t) :
    Single (es ++ [e]) t := by
  have hanswered : ∀ (i j : ι), (if j = i then none else s.under j) = s.under j ∨
      (if j = i then none else s.under j) = none := by
    intro i j
    split_ifs
    · exact .inr rfl
    · exact .inl rfl
  cases hstep with
  | @refused _ i reply _ =>
    refine h.quiet rfl rfl (fun j => ?_) fun _ _ hnone => hnone
    rw [answers, under_goes]
    exact hanswered i j
  | @began i b q client verifier id now victims c a store hidle hasked hstore =>
    obtain ⟨pending, hpending, rfl⟩ := Option.map_eq_some_iff.mp hstore
    refine h.quiet ?_ ?_ (fun j => ?_) fun x hx hnone => ?_
    · simp [returned?]
    · simp [coded?]
    · rw [under_answersIn]
      exact hanswered i j
    · rw [Option.eq_none_iff_forall_ne_some]
      intro w hw
      rcases SortedMap.get?_enter hpending hw with ⟨rfl, -⟩ | hw
      · exact notMem_of_nodup hu.ids rfl hx
      · rw [hnone] at hw
        cases hw
  | @confirms i b headers f now id a hidle hown hcookie ha =>
    refine h.quiet rfl rfl (fun j => ?_) fun _ _ hnone => hnone
    rw [under_goes]
    exact hanswered i j
  | @confirmed i b id a doc hstage =>
    refine h.quiet ?_ ?_ (fun j => ?_) fun _ _ hnone => hnone
    · simp [returned?]
    · simp [coded?]
    · rw [under_answersIn]
      exact hanswered i j
  | @lapses i b headers q now id reply hplain =>
    refine h.quiet rfl rfl (fun j => ?_) fun x hx hnone => get?_erase_none hnone
    rw [answers, under_goes]
    exact hanswered i j
  | @returned i b headers q now id code a hidle hown hcookie ha =>
    have hheld := get?_of_pending? ha
    have hfirst : id ∉ s.log.filterMap returned? := by
      intro hid
      rw [(h.returned id hid).1] at hheld
      cases hheld
    obtain ⟨b', hdid⟩ := hb.pending id a hheld
    have hdrawn := (hr.began _ _ _ hdid.began).id_mem
    have hlog : (s.log ++ [Deed.returned b id (exchangeForm gw a code)]).filterMap returned? =
        s.log.filterMap returned? ++ [id] := by simp [returned?]
    have hsame : (s.log ++ [Deed.returned b id (exchangeForm gw a code)]).filterMap coded? =
        s.log.filterMap coded? := by simp [coded?]
    have hother : ∀ j, s.under j ≠ some id := fun j hj => hfirst (h.back j id hj)
    refine ⟨fun x hx => ?_, fun j x hj => ?_, fun j k x hj hk => ?_, fun x hx => ?_, ?_⟩
    · rw [goes_log, does_log, hlog, List.mem_append, List.mem_singleton] at hx
      rcases hx with hx | rfl
      · obtain ⟨hnone, hold⟩ := h.returned x hx
        exact ⟨get?_erase_none hnone, mem_ids_append hold⟩
      · refine ⟨?_, mem_ids_append hdrawn⟩
        show (s.store.pending.erase x).get? x = none
        rw [SortedMap.get?_erase, if_pos rfl]
    · rw [goes_log, does_log, hlog, List.mem_append, List.mem_singleton]
      rw [under_goes] at hj
      split_ifs at hj with hji
      · exact .inr (Option.some.inj hj).symm
      · exact .inl (h.back j x hj)
    · rw [under_goes] at hj hk
      split_ifs at hj hk with hji hki hki
      · rw [hji, hki]
      · exact absurd ((Option.some.inj hj) ▸ hk) (hother k)
      · exact absurd ((Option.some.inj hk) ▸ hj) (hother j)
      · exact h.alone j k x hj hk
    · rw [goes_log, does_log, hsame] at hx
      obtain ⟨hback, hnot⟩ := h.coded x hx
      rw [goes_log, does_log, hlog]
      refine ⟨List.mem_append_left _ hback, fun j hj => ?_⟩
      rw [under_goes] at hj
      split_ifs at hj with hji
      · exact hfirst (Option.some.inj hj ▸ hback)
      · exact hnot j hj
    · rw [goes_log, does_log, hsame]
      exact h.once
  | @signedIn i b id a form now at_ reply keys login hstage hlogin =>
    refine h.quiet ?_ ?_ (fun j => ?_) fun _ _ hnone => hnone
    · simp [returned?]
    · simp [coded?]
    · rw [under_goes]
      split_ifs with hji
      · refine .inl ?_
        rw [hji, OAuth.under, hstage]
        rfl
      · exact .inl rfl
  | @coded i b id a session now tools code victims store hstage hadmitted hstore =>
    obtain ⟨codes, -, rfl⟩ := Option.map_eq_some_iff.mp hstore
    have hunder : s.under i = some id := by
      rw [OAuth.under, hstage]
      rfl
    have hfirst : id ∉ s.log.filterMap coded? := fun hid => (h.coded id hid).2 i hunder
    have hlog : (s.log ++ [Deed.coded b id code]).filterMap coded? = s.log.filterMap coded? ++ [id] := by
      simp [coded?]
    have hsame : (s.log ++ [Deed.coded b id code]).filterMap returned? = s.log.filterMap returned? := by
      simp [returned?]
    refine ⟨fun x hx => ?_, fun j x hj => ?_, fun j k x hj hk => ?_, fun x hx => ?_, ?_⟩
    · rw [answers_log, does_log, hsame] at hx
      obtain ⟨hnone, hold⟩ := h.returned x hx
      exact ⟨hnone, mem_ids_append hold⟩
    · rw [answers_log, does_log, hsame]
      rw [answers, under_goes] at hj
      split_ifs at hj with hji
      · cases hj
      · exact h.back j x hj
    · rw [answers, under_goes] at hj hk
      split_ifs at hj hk with hji hki hki
      · cases hj
      · cases hj
      · cases hk
      · exact h.alone j k x hj hk
    · rw [answers_log, does_log, hlog, List.mem_append, List.mem_singleton] at hx
      rw [answers_log, does_log, hsame]
      rcases hx with hx | rfl
      · obtain ⟨hback, hnot⟩ := h.coded x hx
        refine ⟨hback, fun j hj => ?_⟩
        rw [answers, under_goes] at hj
        split_ifs at hj with hji
        · cases hj
        · exact hnot j hj
      · refine ⟨h.back i x hunder, fun j hj => ?_⟩
        rw [answers, under_goes] at hj
        split_ifs at hj with hji
        · cases hj
        · exact hji (h.alone j i x hj hunder)
    · rw [answers_log, does_log, hlog]
      exact List.nodup_append.mpr ⟨h.once, List.nodup_singleton id, fun x hx y hy heq =>
        hfirst (List.mem_singleton.mp hy ▸ heq ▸ hx)⟩
  | @redeemed i f now drawn persisted code hidle hcode =>
    obtain ⟨hpending, -⟩ := @redeem_store _ _ gw s.store code f now drawn persisted
    refine h.quiet ?_ ?_ (fun j => ?_) fun x hx hnone => ?_
    · simp [returned?]
    · simp [coded?]
    · rw [answers, under_goes]
      exact hanswered i j
    · rw [answers_store, does_store, hpending]
      exact hnone

/-! ## One token each -/

/-- The code that a token was given out for. -/
def given? : Deed β → Option String
  | .redeemed code _ (some _) => some code
  | _ => none

/-- A code is gone once it is presented, and gets one token at most. -/
structure Spent (es : List (OAuthEvent β ι)) (s : OAuth β ι) : Prop where
  drawn : ∀ b id code, .coded b id code ∈ s.log → code ∈ es.filterMap OAuthEvent.code?
  gone : ∀ b id code f r, [.coded b id code, .redeemed code f r].Sublist s.log →
    s.store.codes.get? code = none
  used : ∀ b id code f r f' r',
    ¬[.coded b id code, .redeemed code f r, .redeemed code f' (some r')].Sublist s.log
  once : (s.log.filterMap given?).Nodup

omit [Origin] [Jose] [DecidableEq β] [DecidableEq ι] in
theorem mem_codes_append {code : String} (h : code ∈ es.filterMap OAuthEvent.code?) :
    code ∈ (es ++ fs).filterMap OAuthEvent.code? := by
  rw [List.filterMap_append]
  exact List.mem_append_left _ h

omit [DecidableEq β] [DecidableEq ι] in
/-- A code that a token was given out for is gone. -/
theorem Spent.gone_of_given (h : Spent es s) (hr : Recorded gw es s.log) {code : String}
    (hgiven : code ∈ s.log.filterMap given?) : s.store.codes.get? code = none := by
  obtain ⟨d, hd, hcode⟩ := List.mem_filterMap.mp hgiven
  cases d with
  | redeemed c f r =>
    cases r with
    | none => cases hcode
    | some r =>
      obtain rfl := Option.some.inj hcode
      obtain ⟨b, id, a, login, -, hearned⟩ := hr.redeemed c f r.1 r.2 hd
      obtain ⟨upstream, hdid⟩ := hearned.done
      exact h.gone b id c f _ hdid.last
  | _ => cases hcode

omit [Origin] [Jose] [DecidableEq β] [DecidableEq ι] in
theorem Spent.quiet (h : Spent es s) (hlog : t.log = s.log) (hcodes : t.store.codes = s.store.codes) :
    Spent (es ++ fs) t where
  drawn b id code hmem := by
    rw [hlog] at hmem
    exact mem_codes_append (h.drawn b id code hmem)
  gone b id code f r hsub := by
    rw [hlog] at hsub
    rw [hcodes]
    exact h.gone b id code f r hsub
  used := by
    rw [hlog]
    exact h.used
  once := by
    rw [hlog]
    exact h.once

omit [DecidableEq β] [DecidableEq ι] in
/-- One more deed: a code is not held again, is gone when it is presented, and was held when a token
is given out for it. -/
theorem Spent.concat (h : Spent es s) (hr : Recorded gw es s.log) (hlog : t.log = s.log ++ [d])
    (hdrawn : ∀ b id code, d = .coded b id code → code ∈ (es ++ fs).filterMap OAuthEvent.code?)
    (hcodes : ∀ code ∈ es.filterMap OAuthEvent.code?, s.store.codes.get? code = none →
      t.store.codes.get? code = none)
    (hgone : ∀ code f r, d = .redeemed code f r → t.store.codes.get? code = none)
    (hheld : ∀ code f r, d = .redeemed code f (some r) → s.store.codes.get? code ≠ none) :
    Spent (es ++ fs) t where
  drawn b id code hmem := by
    rw [hlog, List.mem_append, List.mem_singleton] at hmem
    rcases hmem with hold | hnew
    · exact mem_codes_append (h.drawn b id code hold)
    · exact hdrawn b id code hnew.symm
  gone b id code f r hsub := by
    rw [hlog, show [Deed.coded b id code, .redeemed code f r] = [.coded b id code] ++
      [.redeemed code f r] from rfl, sublist_concat_iff] at hsub
    rcases hsub with hold | ⟨-, hnew⟩
    · have hmem : .coded b id code ∈ s.log := hold.subset List.mem_cons_self
      exact hcodes code (h.drawn b id code hmem) (h.gone b id code f r hold)
    · exact hgone code f r hnew.symm
  used b id code f r f' r' hsub := by
    rw [hlog, show [Deed.coded b id code, .redeemed code f r, .redeemed code f' (some r')] =
      [.coded b id code, .redeemed code f r] ++ [.redeemed code f' (some r')] from rfl,
      sublist_concat_iff] at hsub
    rcases hsub with hold | ⟨hfirst, hnew⟩
    · exact h.used b id code f r f' r' hold
    · exact hheld code f' r' hnew.symm (h.gone b id code f r hfirst)
  once := by
    rw [hlog, List.filterMap_append]
    refine List.nodup_append.mpr ⟨h.once, ?_, fun x hx y hy heq => ?_⟩
    · cases hd : given? d with
      | none => simp [hd]
      | some code => simp [hd]
    · obtain ⟨d', hd', hcode⟩ := List.mem_filterMap.mp hy
      obtain rfl := List.mem_singleton.mp hd'
      have hnone := h.gone_of_given hr (heq ▸ hx)
      cases d' with
      | redeemed code f r =>
        cases r with
        | none => cases hcode
        | some r =>
          rw [← Option.some.inj hcode] at hnone
          exact hheld code f r rfl hnone
      | _ => cases hcode

omit [DecidableEq β] [DecidableEq ι] in
/-- One more deed, for which no code is given out or presented. -/
theorem Spent.does (h : Spent es s) (hr : Recorded gw es s.log) (hlog : t.log = s.log ++ [d])
    (hcoded : ∀ b id code, d ≠ .coded b id code) (hredeemed : ∀ code f r, d ≠ .redeemed code f r)
    (hcodes : t.store.codes = s.store.codes) : Spent (es ++ fs) t := by
  apply h.concat hr hlog
  · intro b id code hd
    exact absurd hd (hcoded b id code)
  · intro code _ hnone
    rw [hcodes]
    exact hnone
  · intro code f r hd
    exact absurd hd (hredeemed code f r)
  · intro code f r hd
    exact absurd hd (hredeemed code f (some r))

theorem Spent.of_steps (hu : Unguessable (es ++ [e])) (hr : Recorded gw es s.log) (h : Spent es s)
    (hstep : Steps gw s e t) : Spent (es ++ [e]) t := by
  cases hstep with
  | refused _ => exact h.quiet rfl rfl
  | @began i b q client verifier id now victims c a store hidle hasked hstore =>
    obtain ⟨pending, -, rfl⟩ := Option.map_eq_some_iff.mp hstore
    exact h.does hr rfl (fun _ _ _ hd => by cases hd) (fun _ _ _ hd => by cases hd) rfl
  | confirms _ _ _ _ => exact h.quiet rfl rfl
  | confirmed _ =>
    exact h.does hr rfl (fun _ _ _ hd => by cases hd) (fun _ _ _ hd => by cases hd) rfl
  | lapses _ => exact h.quiet rfl rfl
  | returned _ _ _ _ =>
    exact h.does hr rfl (fun _ _ _ hd => by cases hd) (fun _ _ _ hd => by cases hd) rfl
  | signedIn _ _ =>
    exact h.does hr rfl (fun _ _ _ hd => by cases hd) (fun _ _ _ hd => by cases hd) rfl
  | @coded i b id a session now tools code victims store hstage hadmitted hstore =>
    obtain ⟨codes, hcodes, rfl⟩ := Option.map_eq_some_iff.mp hstore
    refine h.concat hr rfl (fun b' id' code' hd => ?_) (fun x hx hnone => ?_)
      (fun _ _ _ hd => by cases hd) fun _ _ _ hd => by cases hd
    · obtain ⟨-, -, rfl⟩ := Deed.coded.inj hd
      exact List.mem_filterMap.mpr ⟨_, List.mem_append_right es List.mem_cons_self, rfl⟩
    · rw [Option.eq_none_iff_forall_ne_some]
      intro g hg
      rcases SortedMap.get?_enter hcodes hg with ⟨rfl, -⟩ | hold
      · exact notMem_of_nodup hu.codes rfl hx
      · rw [hnone] at hold
        cases hold
  | @redeemed i f now drawn persisted code hidle hcode =>
    obtain ⟨-, hcodes⟩ := @redeem_store _ _ gw s.store code f now drawn persisted
    refine h.concat hr rfl (fun _ _ _ hd => by cases hd) (fun x _ hnone => ?_) (fun x f' r hd => ?_)
      fun x f' r hd => ?_
    · rw [answers_store, does_store, hcodes, SortedMap.get?_erase]
      split_ifs
      · rfl
      · exact hnone
    · obtain ⟨rfl, -, -⟩ := Deed.redeemed.inj hd
      rw [answers_store, does_store, hcodes, SortedMap.get?_erase, if_pos rfl]
    · obtain ⟨rfl, -, hgiven⟩ := Deed.redeemed.inj hd
      obtain ⟨g, n, hheld, -⟩ := redeem_eq_some hgiven
      rw [hheld]
      exact Option.some_ne_none g

/-! ## What becomes of a token -/

omit [Jose] [DecidableEq β] [DecidableEq ι] in
/-- Presenting a code puts in the session of the token that is drawn, if any. -/
theorem redeem_tokens {store : Store} {code : String} {f : Form} {now : Int64}
    {drawn : Except Anyhow String} {persisted : Bool} :
    (redeem gw store code f now drawn persisted).1.tokens = store.tokens ∨
      ∃ token session live, drawn = .ok token ∧
        (redeem gw store code f now drawn persisted).1.tokens =
          (store.tokens.retain live).insert (tokenHash token) session := by
  unfold redeem Store.redeemCode
  split
  · rename_i hcode
    obtain ⟨rfl, -⟩ := Prod.mk.inj hcode
    exact .inl rfl
  · rename_i store' g hcode
    obtain ⟨rfl, -⟩ := Prod.mk.inj hcode
    split
    · exact .inl rfl
    · split
      · exact .inl rfl
      · rename_i token
        refine .inr ⟨token, g.session, fun s => s.notAfter > now, rfl, ?_⟩
        dsimp only
        split_ifs
        · rfl
        · rfl

omit [Jose] [DecidableEq β] [DecidableEq ι] in
/-- A request is answered with a token when one is given out. -/
theorem redeem_given {store : Store} {code token : String} {f : Form} {now n : Int64}
    {drawn : Except Anyhow String} {persisted : Bool}
    (h : (redeem gw store code f now drawn persisted).2.1 = .token token n) :
    ∃ session, (redeem gw store code f now drawn persisted).2.2 = some (token, session) := by
  unfold redeem at h ⊢
  split at h
  · cases h
  · rename_i store' g hcode
    split at h
    · rename_i r hr
      exact absurd h (errors_redeemable g f now r hr token n)
    · rename_i m hm
      split at h
      · cases h
      · rename_i drawn
        dsimp only at h
        split_ifs at h with hp
        obtain ⟨rfl, -⟩ := Reply.token.inj h
        exact ⟨g.session, by simp [hp]⟩

/-- A token that was given out was drawn, keeps its session, and was the answer to the request that
presented its code. -/
structure Issued (es : List (OAuthEvent β ι)) (s : OAuth β ι) : Prop where
  drawn : ∀ code f token session, .redeemed code f (some (token, session)) ∈ s.log →
    token ∈ es.filterMap OAuthEvent.token?
  held : ∀ code f token session, .redeemed code f (some (token, session)) ∈ s.log →
    ∀ session', s.store.tokens.get? (tokenHash token) = some session' → session' = session
  replied : ∀ i token n, s.requests i = some (.done (.token token n)) →
    ∃ f now drawn persisted code session, .token i f now drawn persisted ∈ es ∧
      f.get? "code" = some code ∧ .redeemed code f (some (token, session)) ∈ s.log

omit [Origin] [Jose] [DecidableEq β] [DecidableEq ι] in
theorem mem_tokens_append {token : String} (h : token ∈ es.filterMap OAuthEvent.token?) :
    token ∈ (es ++ fs).filterMap OAuthEvent.token? := by
  rw [List.filterMap_append]
  exact List.mem_append_left _ h

omit [Origin] [Jose] [DecidableEq β] [DecidableEq ι] in
/-- A token that was drawn is hashed. -/
theorem hashes_of_drawn {token : String} (h : token ∈ es.filterMap OAuthEvent.token?) :
    ∃ e ∈ es, utf8 token.toList ∈ e.hashes := by
  obtain ⟨e, he, htoken⟩ := List.mem_filterMap.mp h
  refine ⟨e, he, ?_⟩
  cases e with
  | token i f now drawn persisted =>
    have hdrawn : drawn.toOption = some token := htoken
    simp [OAuthEvent.hashes, hdrawn]
  | _ => cases htoken

omit [Origin] [Jose] [DecidableEq β] in
/-- A request that has come to anything but a token. -/
theorem replied_update {requests : ι → Option (OAuthStage β)} {i j : ι} {stage : OAuthStage β}
    {token : String} {n : Int64} (hstage : stage ≠ .done (.token token n))
    (h : Function.update requests i (some stage) j = some (.done (.token token n))) :
    requests j = some (.done (.token token n)) := by
  rw [Function.update_apply] at h
  split_ifs at h
  · exact absurd (Option.some.inj h) hstage
  · exact h

omit [Jose] [DecidableEq β] [DecidableEq ι] in
/-- A step at which no token is given out. -/
theorem Issued.quiet (h : Issued es s) (hlog : s.log.Sublist t.log)
    (hnew : ∀ code f r, .redeemed code f (some r) ∈ t.log → .redeemed code f (some r) ∈ s.log)
    (htokens : t.store.tokens = s.store.tokens)
    (hreplied : ∀ i token n, t.requests i = some (.done (.token token n)) →
      s.requests i = some (.done (.token token n))) : Issued (es ++ fs) t where
  drawn code f token session hmem := mem_tokens_append (h.drawn code f token session (hnew _ _ _ hmem))
  held code f token session hmem := by
    rw [htokens]
    exact h.held code f token session (hnew _ _ _ hmem)
  replied i token n hi := by
    obtain ⟨f, now, drawn, persisted, code, session, hmem, hcode, hgiven⟩ :=
      h.replied i token n (hreplied i token n hi)
    exact ⟨f, now, drawn, persisted, code, session, List.mem_append_left fs hmem, hcode,
      hlog.subset hgiven⟩

omit [Jose] [DecidableEq β] [DecidableEq ι] in
theorem Issued.does (h : Issued es s) (hlog : t.log = s.log ++ [d])
    (hd : ∀ code f r, d ≠ .redeemed code f (some r)) (htokens : t.store.tokens = s.store.tokens)
    (hreplied : ∀ i token n, t.requests i = some (.done (.token token n)) →
      s.requests i = some (.done (.token token n))) : Issued (es ++ fs) t := by
  refine h.quiet (hlog ▸ List.sublist_append_left s.log [d]) (fun code f r hmem => ?_) htokens hreplied
  rw [hlog, List.mem_append, List.mem_singleton] at hmem
  rcases hmem with hold | hnew
  · exact hold
  · exact absurd hnew.symm (hd code f r)

theorem Issued.of_steps (hu : Unguessable (es ++ [e])) (h : Issued es s) (hstep : Steps gw s e t) :
    Issued (es ++ [e]) t := by
  have hsame : s.log.Sublist s.log := List.Sublist.refl _
  cases hstep with
  | @refused _ i reply hplain =>
    exact h.quiet hsame (fun _ _ _ hmem => hmem) rfl fun j token n =>
      replied_update fun heq => hplain.ne_token token n (OAuthStage.done.inj heq)
  | @began i b q client verifier id now victims c a store hidle hasked hstore =>
    obtain ⟨pending, -, rfl⟩ := Option.map_eq_some_iff.mp hstore
    exact h.does rfl (fun _ _ _ hd => by cases hd) rfl fun j token n =>
      replied_update fun heq => by cases heq
  | confirms _ _ _ _ =>
    exact h.quiet hsame (fun _ _ _ hmem => hmem) rfl fun j token n =>
      replied_update fun heq => by cases heq
  | confirmed _ =>
    exact h.does rfl (fun _ _ _ hd => by cases hd) rfl fun j token n =>
      replied_update fun heq => by cases heq
  | lapses hplain =>
    exact h.quiet hsame (fun _ _ _ hmem => hmem) rfl fun j token n =>
      replied_update fun heq => hplain.ne_token token n (OAuthStage.done.inj heq)
  | returned _ _ _ _ =>
    exact h.does rfl (fun _ _ _ hd => by cases hd) rfl fun j token n =>
      replied_update fun heq => by cases heq
  | signedIn _ _ =>
    exact h.does rfl (fun _ _ _ hd => by cases hd) rfl fun j token n =>
      replied_update fun heq => by cases heq
  | @coded i b id a session now tools code victims store hstage hadmitted hstore =>
    obtain ⟨codes, -, rfl⟩ := Option.map_eq_some_iff.mp hstore
    exact h.does rfl (fun _ _ _ hd => by cases hd) rfl fun j token n =>
      replied_update fun heq => by cases heq
  | @redeemed i f now drawn persisted code hidle hcode =>
    refine ⟨fun code' f' token session hmem => ?_, fun code' f' token session hmem session' hget => ?_,
      fun j token n hj => ?_⟩
    · rw [answers_log, does_log, List.mem_append, List.mem_singleton] at hmem
      rcases hmem with hold | hnew
      · exact mem_tokens_append (h.drawn code' f' token session hold)
      · obtain ⟨-, -, hgiven⟩ := Deed.redeemed.inj hnew
        obtain ⟨g, n, -, -, rfl, -⟩ := redeem_eq_some hgiven.symm
        exact List.mem_filterMap.mpr ⟨_, List.mem_append_right es List.mem_cons_self, rfl⟩
    · rw [answers_log, does_log, List.mem_append, List.mem_singleton] at hmem
      rw [answers_store, does_store] at hget
      rcases hmem with hold | hnew
      · have hdrawn := h.drawn code' f' token session hold
        rcases @redeem_tokens _ _ gw s.store code f now drawn persisted with heq |
          ⟨fresh, session'', live, rfl, heq⟩
        · rw [heq] at hget
          exact h.held code' f' token session hold session' hget
        · have hne : tokenHash token ≠ tokenHash fresh := by
            intro hhash
            have hfresh : fresh ∈ (es ++ [OAuthEvent.token i f now (.ok fresh) persisted]).filterMap
                OAuthEvent.token? :=
              List.mem_filterMap.mpr ⟨_, List.mem_append_right es List.mem_cons_self, rfl⟩
            have htoken := tokenHash_inj hu.hash (hashes_of_drawn (mem_tokens_append hdrawn))
              (hashes_of_drawn hfresh) hhash
            exact notMem_of_nodup hu.tokens rfl (htoken ▸ hdrawn)
          rw [heq, SortedMap.get?_insert, if_neg hne] at hget
          exact h.held code' f' token session hold session' (SortedMap.get?_of_retain hget)
      · obtain ⟨-, -, hgiven⟩ := Deed.redeemed.inj hnew
        obtain ⟨g, n, -, -, -, -, heq⟩ := redeem_eq_some hgiven.symm
        rw [heq, SortedMap.get?_insert, if_pos rfl] at hget
        exact (Option.some.inj hget).symm
    · rw [answers_requests, Function.update_apply] at hj
      split_ifs at hj with hji
      · obtain ⟨session, hgiven⟩ := redeem_given (OAuthStage.done.inj (Option.some.inj hj))
        refine ⟨f, now, drawn, persisted, code, session, ?_, hcode, ?_⟩
        · rw [hji]
          exact List.mem_append_right es List.mem_cons_self
        · rw [answers_log, does_log, hgiven]
          exact List.mem_append_right s.log List.mem_cons_self
      · obtain ⟨f', now', drawn', persisted', code', session, hmem, hcode', hgiven⟩ :=
          h.replied j token n hj
        refine ⟨f', now', drawn', persisted', code', session, List.mem_append_left _ hmem, hcode', ?_⟩
        rw [answers_log, does_log]
        exact List.mem_append_left _ hgiven

/-! ## Every run -/

/-- The two tables are not over their caps. -/
structure Bounded (store : Store) : Prop where
  pending : store.pending.length ≤ MAX_PENDING
  codes : store.codes.length ≤ MAX_CODES

theorem Bounded.of_steps (h : Bounded s.store) (hstep : Steps gw s e t) : Bounded t.store := by
  have herase : ∀ id, (s.store.pending.erase id).length ≤ MAX_PENDING := fun id =>
    (SortedMap.length_erase_le id s.store.pending).trans h.pending
  cases hstep with
  | @began i b q client verifier id now victims c a store hidle hasked hstore =>
    obtain ⟨pending, hpending, rfl⟩ := Option.map_eq_some_iff.mp hstore
    exact ⟨SortedMap.length_enter hpending, h.codes⟩
  | lapses _ => exact ⟨herase _, h.codes⟩
  | returned _ _ _ _ => exact ⟨herase _, h.codes⟩
  | @coded i b id a session now tools code victims store hstage hadmitted hstore =>
    obtain ⟨codes, hcodes, rfl⟩ := Option.map_eq_some_iff.mp hstore
    exact ⟨h.pending, SortedMap.length_enter hcodes⟩
  | @redeemed i f now drawn persisted code hidle hcode =>
    obtain ⟨hpending, hcodes⟩ := @redeem_store _ _ gw s.store code f now drawn persisted
    have hfewer := (SortedMap.length_erase_le code s.store.codes).trans h.codes
    rw [← hcodes] at hfewer
    exact ⟨hpending ▸ h.pending, hfewer⟩
  | refused _ => exact h
  | confirms _ _ _ _ => exact h
  | confirmed _ => exact h
  | signedIn _ _ => exact h

/-- All of it. -/
structure Sound (gw : Gateway) (es : List (OAuthEvent β ι)) (s : OAuth β ι) : Prop where
  recorded : Recorded gw es s.log
  backed : Backed gw es s.log s
  single : Single es s
  spent : Spent es s
  issued : Issued es s
  bounded : Bounded s.store

omit [DecidableEq β] [DecidableEq ι] in
theorem backed_start (tokens : SortedMap String Session) (now : Int64) :
    Backed gw [] [] (start (Store.opened tokens now) : OAuth β ι) where
  pending _ _ h := by cases h
  consent _ _ h := by cases h
  callback _ _ h := by cases h
  stages _ _ h := by cases h
  codes _ _ h := by cases h

omit [DecidableEq β] [DecidableEq ι] in
theorem sound_start (tokens : SortedMap String Session) (now : Int64) :
    Sound gw [] (start (Store.opened tokens now) : OAuth β ι) where
  recorded := ⟨by simp [start], by simp [start], by simp [start]⟩
  backed := backed_start tokens now
  single := ⟨by simp [start], by simp [start, under], by simp [start, under], by simp [start],
    by simp [start]⟩
  spent := ⟨by simp [start], by simp [start], by simp [start], by simp [start]⟩
  issued := ⟨by simp [start], by simp [start], by simp [start]⟩
  bounded := ⟨Nat.zero_le _, Nat.zero_le _⟩

theorem Sound.of_steps (hu : Unguessable (es ++ [e])) (h : Sound gw es s) (hstep : Steps gw s e t) :
    Sound gw (es ++ [e]) t where
  recorded := h.recorded.of_steps hu h.backed hstep
  backed := h.backed.of_steps hu.of_append h.recorded hstep
  single := h.single.of_steps hu h.recorded h.backed hstep
  spent := h.spent.of_steps hu h.recorded hstep
  issued := h.issued.of_steps hu hstep
  bounded := h.bounded.of_steps hstep

theorem sound_of_run {tokens : SortedMap String Session} {now : Int64} (hu : Unguessable es)
    (hrun : run (step gw) (start (Store.opened tokens now)) es = some s) : Sound gw es s := by
  refine run_induction (motive := fun es s => Unguessable es → Sound gw es s)
    (fun _ => sound_start tokens now) (fun es e s t _ ih hstep hu => ?_) hrun hu
  exact (ih hu.of_append).of_steps hu (steps_of_step hstep)

/-! ## What a token is -/

/-- The IdP answered with an ID token that is valid, for this node, and names this principal. -/
def Vouched (gw : Gateway) (es : List (OAuthEvent β ι)) (login : Login) : Prop :=
  ∃ i reply at_ keys kid jwks jws, .exchanged i (.ok reply) at_ keys ∈ es ∧
    reply.idToken = some login.claim.idToken ∧ keys gw.upstream.issuer kid = .ok jwks ∧
    Jws.Reads login.claim.idToken jws ∧
    jws.Valid gw.node gw.upstream.issuer jwks [gw.upstream.audience] at_ login.principal.notAfter ∧
    jws.payload.Names gw.upstream.issuer login.principal

omit [DecidableEq β] [DecidableEq ι] in
theorem LoggedIn.vouched {login : Login} (h : LoggedIn gw es a login) : Vouched gw es login := by
  obtain ⟨i, reply, at_, keys, hmem, hok⟩ := h
  unfold exchanged Login.finish at hok
  simp only [mapErr_eq_ok, bind_eq_ok, orError_eq_ok, Prod.exists, opened_eq_ok, judged_eq_ok,
    verifyClaim_eq_ok, pure_eq_ok] at hok
  obtain ⟨reply, rfl, idToken, hid, who, ⟨issuer, kid, ⟨-, hissuer, -⟩, jwks, hkeys, jws, hreads,
    hvalid, hnames⟩, rfl⟩ := hok
  obtain rfl := List.mem_singleton.mp hissuer
  exact ⟨i, reply, at_, keys, kid, jwks, jws, hmem, hid, hkeys, hreads, hvalid, hnames⟩

omit [Jose] [DecidableEq β] [DecidableEq ι] in
/-- An authorization is for this gateway's resource. -/
theorem Began.resource (h : Began gw es b id a) : a.resource = gw.urls.resource := by
  obtain ⟨i, q, client, verifier, now, victims, c, -, hasked⟩ := h
  unfold authorization at hasked
  simp only [bind_eq_ok, pure_eq_ok, Prod.mk.injEq] at hasked
  obtain ⟨-, -, -, -, -, -, -, -, -, -, -, -, -, -, -, -, -, rfl⟩ := hasked
  rfl

/-- In every run, a request is answered with a token only if it presents a code with the verifier,
the client and the redirect URI of an authorization that was confirmed, came back and signed in in
the browser that it began in. The token then stands for who signed in, at this gateway, until the ID
token expires. An authorization gets one code at most, and a code one token, if any the first time it
is presented; and the tables keep to their caps. -/
theorem flow_safe (gw : Gateway) (tokens : SortedMap String Session) (opened : Int64)
    (es : List (OAuthEvent β ι)) (s : OAuth β ι)
    (hrun : run (step gw) (start (Store.opened tokens opened)) es = some s) (hu : Unguessable es) :
    (∀ i token n, s.requests i = some (.done (.token token n)) →
      ∃ f now drawn persisted code b id a login, .token i f now drawn persisted ∈ es ∧
        f.get? "code" = some code ∧ Earned gw es s.log code f token b id a login ∧
        Vouched gw es login ∧ (sessionOf a login).resource = gw.urls.resource ∧
        ∀ now session, s.store.session token now = some session →
          session = sessionOf a login ∧ now < login.principal.notAfter) ∧
    (s.log.filterMap coded?).Nodup ∧ (s.log.filterMap given?).Nodup ∧
    (∀ b id code f r f' r', ¬[.coded b id code, .redeemed code f r,
      .redeemed code f' (some r')].Sublist s.log) ∧
    s.store.pending.length ≤ MAX_PENDING ∧ s.store.codes.length ≤ MAX_CODES := by
  have h := sound_of_run hu hrun
  refine ⟨fun i token n hi => ?_, h.single.once, h.spent.once, h.spent.used, h.bounded.pending,
    h.bounded.codes⟩
  obtain ⟨f, now, drawn, persisted, code, session, hmem, hcode, hgiven⟩ := h.issued.replied i token n hi
  obtain ⟨b, id, a, login, rfl, hearned⟩ := h.recorded.redeemed code f token session hgiven
  refine ⟨f, now, drawn, persisted, code, b, id, a, login, hmem, hcode, hearned, hearned.verified.vouched,
    hearned.asked.resource, fun now' session' hlive => ?_⟩
  obtain ⟨hheld, hbefore⟩ := Option.filter_eq_some_iff.mp hlive
  have hsame := h.issued.held code f token _ hgiven session' hheld
  refine ⟨hsame, ?_⟩
  rw [hsame] at hbefore
  exact of_decide_eq_true hbefore

end

/-! ## One sign-in, and its token -/

section Sample

attribute [local instance] Jose.plain clientWeb clientOrigin clientParts plainHmac

/-- The sign-in, and the request that presents its code. -/
def tokenEvents : List (OAuthEvent Unit (Fin 4)) :=
  sampleEvents fullUri ++ [.token (Fin.last 3) (sampleForm fullUri) 3 (.ok "token") true]

theorem hashes_tokenEvents {text : List UInt8} (h : ∃ e ∈ tokenEvents, text ∈ e.hashes) :
    text = bindingText "id" ∨ text = utf8 "token".toList := by
  have hstate : SortedMap.get? (SortedMap.collect [("state", "id"), ("code", "upstream")]) "state" =
    some "id" := by decide
  obtain ⟨e, he, htext⟩ := h
  simp only [tokenEvents, sampleEvents, List.cons_append, List.nil_append, List.mem_cons,
    List.not_mem_nil, or_false] at he
  rcases he with rfl | rfl | rfl | rfl | rfl | rfl | rfl
  · exact .inl (List.mem_singleton.mp htext)
  · cases htext
  · cases htext
  · rw [OAuthEvent.hashes, hstate] at htext
    exact .inl (List.mem_singleton.mp htext)
  · cases htext
  · cases htext
  · exact .inr (List.mem_singleton.mp htext)

theorem binding_ne_token : callbackBinding "id" ≠ tokenHash "token" := by
  have htoken : tokenHash "token" = sampleTokenHash := by decide +kernel
  rw [callbackBinding_id, htoken]
  decide

theorem unguessable_tokenEvents : Unguessable tokenEvents where
  ids := List.nodup_singleton "id"
  codes := List.nodup_singleton "code"
  tokens := List.nodup_singleton "token"
  hash := by
    intro x hx y hy heq
    have hencoded : String.ofList (Base64.encode (Origin.sha256 x).toList) =
        String.ofList (Base64.encode (Origin.sha256 y).toList) := by rw [heq]
    rcases hashes_tokenEvents hx with rfl | rfl
    · rcases hashes_tokenEvents hy with rfl | rfl
      · rfl
      · exact absurd hencoded binding_ne_token
    · rcases hashes_tokenEvents hy with rfl | rfl
      · exact absurd hencoded.symm binding_ne_token
      · rfl

/-- The one request that is answered with a token had the verifier of the code's challenge. -/
theorem flow_safe_sample : ∃ (s : OAuth Unit (Fin 4)) (token : String) (n : Int64),
    run (step sampleGateway) (start (Store.opened ∅ 0)) tokenEvents = some s ∧
      s.requests 3 = some (.done (.token token n)) ∧
      ∃ f code b id a login, Earned sampleGateway tokenEvents s.log code f token b id a login := by
  obtain ⟨s, hrun, hheld, hidle⟩ := run_sampleEvents fullUri
  have hlooks : LooksUp sampleKey (sampleEvents fullUri) := looksUp_sample fullUri (by decide +kernel)
  obtain ⟨t, hstep, hiff⟩ : ∃ t, step sampleGateway s
      (.token 3 (sampleForm fullUri) 3 (.ok "token") true) = some t ∧ _ :=
    redeemed_of_presents hlooks (asked_sample fullUri) hheld hidle (presents_sample fullUri)
  obtain ⟨token, n, hreply⟩ := hiff.mpr ⟨normalTexts_fullUri, ⟨"token", rfl⟩, rfl⟩
  have hboth : run (step sampleGateway) (start (Store.opened ∅ 0)) tokenEvents = some t :=
    run_concat.mpr ⟨s, hrun, hstep⟩
  obtain ⟨hearned, -⟩ :=
    flow_safe sampleGateway ∅ 0 tokenEvents t hboth unguessable_tokenEvents
  obtain ⟨f, _, _, _, code, b, id, a, login, -, -, h, -⟩ := hearned 3 token n hreply
  exact ⟨t, token, n, hboth, hreply, f, code, b, id, a, login, h⟩

end Sample

end OAuth

end Wires
