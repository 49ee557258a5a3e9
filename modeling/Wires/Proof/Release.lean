import Wires.Proof.History
import Wires.Proof.Messages
import Wires.Proof.Vouching

/-!
# To whom a caller speaks

A `Hello` carries the caller's token. Over every run of a call or a fetch, one
is sent only to a host the caller's check cleared, and any other frame but
`Open` only to a host that was sent one (`token_release`). What a step of
opening a stream can do is said once (`Opening.Moves`); each stage of an opening
keeps what the next frame will need (`Opening.Good`), and the frames written are
licensed one by one (`Licensed`).
-/

namespace Wires

section

variable [Crypto] {root : NodeId}

/-! ## Steps of an opening -/

/-- What one step of opening a stream does. -/
inductive Opening.Moves (errand : Errand) (idToken : IdToken) (host : NodeId) (t : Talk root) :
    Opening root → SpeakEvent root → Talk root → Opening root → Prop where
  | ready {now : Int64} (h : t.vouch.ready host now = true) : Moves errand idToken host t .silent
      (.clock now) t (.greets ⟨t.vouch.held, now, t.vouch.held, none⟩)
  | unready {now : Int64} : Moves errand idToken host t .silent (.clock now) t .opens
  | opened {at_ : Int64} {r : Except Anyhow Unit} {o : Opening root}
    (ho : o = .waits none ∨ ∃ why, o = .stopped why) :
    Moves errand idToken host t .opens (.wrote at_ r) (t.send (.opens host)) o
  | greeted {on : Grounds root} {at_ : Int64} {r : Except Anyhow Unit} {o : Opening root}
    (ho : o = .requests on ∨ ∃ why, o = .stopped why) :
    Moves errand idToken host t (.greets on) (.wrote at_ r)
      (t.send (.hello host (errand.helloVersion t.vouch.version) idToken on at_)) o
  | requested {on : Grounds root} {at_ : Int64} {r : Except Anyhow Unit} {o : Opening root}
    (ho : (on.shown = none ∧ o = .waits (some on)) ∨
      (∃ proof, on.shown = some proof ∧ o = .spoken on proof) ∨ ∃ why, o = .stopped why) :
    Moves errand idToken host t (.requests on) (.wrote at_ r) (t.send (errand.request host)) o
  | refused {atOnce : Option (Grounds root)} {e : SpeakEvent root} {why : Stop} :
    Moves errand idToken host t (.waits atOnce) e t (.stopped why)
  | failed {atOnce : Option (Grounds root)} {proof : HostProof} {now : Int64} {refreshed : Refreshed root}
    {v : Vouching root} {why : Stop}
    (h : t.vouch.check host proof now atOnce.isNone refreshed = .error (v, why)) :
    Moves errand idToken host t (.waits atOnce) (.first (.proof proof) now refreshed)
      { t with vouch := v } (.stopped why)
  | checked {proof : HostProof} {now : Int64} {refreshed : Refreshed root} {v : Vouching root}
    (h : t.vouch.checkBefore host proof now refreshed = .ok v) :
    Moves errand idToken host t (.waits none) (.first (.proof proof) now refreshed)
      { t with vouch := v } (.greets ⟨t.vouch.held, now, v.held, some proof⟩)
  | confirmed {on : Grounds root} {proof : HostProof} {now : Int64} {refreshed : Refreshed root}
    {v : Vouching root} (h : t.vouch.checkAfter host proof now = .ok v) :
    Moves errand idToken host t (.waits (some on)) (.first (.proof proof) now refreshed)
      { t with vouch := v } (.spoken on proof)

section

variable {errand : Errand} {idToken : IdToken} {host : NodeId} {t t' : Talk root}
  {o o' : Opening root} {e : SpeakEvent root}

theorem Opening.moves_of_heard {atOnce : Option (Grounds root)} {frame : FirstFrame} {now : Int64}
    {refreshed : Refreshed root}
    (h : heard errand host t atOnce frame now refreshed = (t', o')) :
    Moves errand idToken host t (.waits atOnce) (.first frame now refreshed) t' o' := by
  unfold heard at h
  split at h
  · rename_i p
    split at h
    · rename_i v stop hcheck
      obtain ⟨rfl, rfl⟩ := Prod.mk.inj h
      exact .failed hcheck
    · rename_i v hcheck
      split at h
      · obtain ⟨rfl, rfl⟩ := Prod.mk.inj h
        exact .confirmed (Vouching.keeping_eq_ok.mp hcheck)
      · obtain ⟨rfl, rfl⟩ := Prod.mk.inj h
        exact .checked hcheck
  · obtain ⟨rfl, rfl⟩ := Prod.mk.inj h
    exact .refused
  · split at h
    · obtain ⟨rfl, rfl⟩ := Prod.mk.inj h
      exact .refused
    · obtain ⟨rfl, rfl⟩ := Prod.mk.inj h
      exact .refused

theorem Opening.moves_of_step (h : o.step errand idToken host t e = some (t', o')) :
    Moves errand idToken host t o e t' o' := by
  unfold step at h
  split at h
  · split at h
    · rename_i hready
      obtain ⟨rfl, rfl⟩ := Prod.mk.inj (Option.some.inj h)
      exact .ready hready
    · obtain ⟨rfl, rfl⟩ := Prod.mk.inj (Option.some.inj h)
      exact .unready
  · rename_i at_ result
    obtain ⟨rfl, rfl⟩ := Prod.mk.inj (Option.some.inj h)
    refine .opened ?_
    cases result with
    | ok u => exact .inl rfl
    | error why => exact .inr ⟨_, rfl⟩
  · rename_i on at_ result
    obtain ⟨rfl, rfl⟩ := Prod.mk.inj (Option.some.inj h)
    refine .greeted ?_
    cases result with
    | ok u => exact .inl rfl
    | error why => exact .inr ⟨_, rfl⟩
  · rename_i on at_ result
    obtain ⟨rfl, rfl⟩ := Prod.mk.inj (Option.some.inj h)
    refine .requested ?_
    cases result with
    | ok u =>
      cases hs : on.shown with
      | none => exact .inl ⟨rfl, rfl⟩
      | some proof => exact .inr (.inl ⟨proof, rfl, rfl⟩)
    | error why => exact .inr (.inr ⟨_, rfl⟩)
  · exact moves_of_heard (Option.some.inj h)
  · cases h

end

/-! ## Licensed frames -/

/-- The host was sent a `Hello`. -/
def Greeted (sent : List (Sent root)) (host : NodeId) : Prop :=
  ∃ version token on at_, Sent.hello host version token on at_ ∈ sent

/-- What it takes to send a frame, after those sent already: a `Hello` has grounds, and any other
frame but `Open` goes to a host that was sent one. -/
def Sent.LicensedBy (J : NodeId → Grounds root → Prop) (older : List (Sent root)) :
    Sent root → Prop
  | .opens _ => True
  | .hello host _ _ on _ => J host on
  | .invoke host _ _ => Greeted older host
  | .fetch host _ => Greeted older host
  | .stdin host _ => Greeted older host
  | .ack host _ => Greeted older host

/-- Every frame sent was licensed when it was. -/
def Licensed (J : NodeId → Grounds root → Prop) : List (Sent root) → Prop
  | [] => True
  | s :: older => s.LicensedBy J older ∧ Licensed J older

theorem Greeted.cons {sent : List (Sent root)} {host : NodeId} (h : Greeted sent host)
    (s : Sent root) : Greeted (s :: sent) host := by
  obtain ⟨version, token, on, at_, hm⟩ := h
  exact ⟨version, token, on, at_, List.mem_cons_of_mem _ hm⟩

/-- Better grounds for every `Hello` sent. -/
theorem Licensed.imp {J J' : NodeId → Grounds root → Prop} {sent : List (Sent root)}
    (h : Licensed J sent)
    (himp : ∀ host version token on at_, Sent.hello host version token on at_ ∈ sent →
      J host on → J' host on) : Licensed J' sent := by
  induction sent with
  | nil => trivial
  | cons s older ih =>
    obtain ⟨hs, holder⟩ := h
    refine ⟨?_, ih holder fun host version token on at_ hm => himp _ _ _ _ _ (List.mem_cons_of_mem _ hm)⟩
    cases s with
    | hello host version token on at_ => exact himp _ _ _ _ _ List.mem_cons_self hs
    | opens host => exact hs
    | invoke host service argv => exact hs
    | fetch host waitMs => exact hs
    | stdin host chunk => exact hs
    | ack host ids => exact hs

/-! ## The invariant -/

section

variable (scope : Scope) (known : List NodeId)

/-- A caller for `scope` that knows of `known`, all of whose frames were licensed. -/
structure Talk.Good (t : Talk root) : Prop where
  wants : t.vouch.scope = scope
  knows : t.vouch.known = known
  licensed : Licensed (fun host on => on.Cleared scope known host) t.sent

/-- What each stage of opening a stream to a host has for its next frame. -/
def Opening.Good (host : NodeId) (sent : List (Sent root)) : Opening root → Prop
  | .greets on => on.Cleared scope known host
  | .requests _ => Greeted sent host
  | .waits (some _) => Greeted sent host
  | .spoken _ _ => Greeted sent host
  | _ => True

variable {scope known} {errand : Errand} {idToken : IdToken} {host : NodeId} {t t' : Talk root}
  {o o' : Opening root} {e : SpeakEvent root}

theorem Talk.Good.send (ht : t.Good scope known) {s : Sent root}
    (hs : s.LicensedBy (fun host on => on.Cleared scope known host) t.sent) :
    (t.send s).Good scope known := ⟨ht.wants, ht.knows, hs, ht.licensed⟩

theorem Talk.Good.vouch (ht : t.Good scope known) {v : Vouching root} (hv : t.vouch.Alike v) :
    ({ t with vouch := v } : Talk root).Good scope known :=
  ⟨hv.1.trans ht.wants, hv.2.trans ht.knows, ht.licensed⟩

theorem licensedBy_request {J : NodeId → Grounds root → Prop} {sent : List (Sent root)}
    (errand : Errand) (h : Greeted sent host) :
    (errand.request host : Sent root).LicensedBy J sent := by
  cases errand with
  | call service argv => exact h
  | fetch waitMs => exact h

/-- A step of an opening sends only what is licensed, and prepares the next frame. -/
theorem Opening.good_step (ht : t.Good scope known) (ho : o.Good scope known host t.sent)
    (hm : Moves errand idToken host t o e t' o') :
    t'.Good scope known ∧ o'.Good scope known host t'.sent := by
  cases hm with
  | ready hready =>
    refine ⟨ht, ?_⟩
    have hcleared := cleared_of_ready hready t.vouch.held
    rw [ht.wants, ht.knows] at hcleared
    exact hcleared
  | unready => exact ⟨ht, trivial⟩
  | opened hnext =>
    refine ⟨ht.send trivial, ?_⟩
    rcases hnext with rfl | ⟨why, rfl⟩ <;> trivial
  | @greeted on at_ r _ hnext =>
    refine ⟨ht.send ho, ?_⟩
    rcases hnext with rfl | ⟨why, rfl⟩
    · exact ⟨_, _, on, at_, List.mem_cons_self⟩
    · trivial
  | requested hnext =>
    have hgreeted : Greeted t.sent host := ho
    refine ⟨ht.send (licensedBy_request errand hgreeted), ?_⟩
    rcases hnext with ⟨-, rfl⟩ | ⟨proof, -, rfl⟩ | ⟨why, rfl⟩
    · exact hgreeted.cons _
    · exact hgreeted.cons _
    · trivial
  | refused => exact ⟨ht, trivial⟩
  | failed hcheck => exact ⟨ht.vouch (Vouching.check_eq_error hcheck), trivial⟩
  | checked hcheck =>
    have hcleared := cleared_of_check hcheck t.vouch.held
    rw [ht.wants, ht.knows] at hcleared
    exact ⟨ht.vouch (Vouching.checkBefore_eq_ok hcheck).1, hcleared⟩
  | confirmed hcheck => exact ⟨ht.vouch (Vouching.checkAfter_eq_ok hcheck).1, ho⟩

/-! ## Calls -/

/-- What each stage of a call has for its next frame. -/
def CallStage.Good (scope : Scope) (known : List NodeId) (sent : List (Sent root)) :
    CallStage root → Prop
  | .speaking _ host opening => opening.Good scope known host sent
  | .awaits host _ _ => Greeted sent host
  | .bridges host _ _ _ => Greeted sent host
  | _ => True

theorem ServiceCall.good_opened {c : ServiceCall root} {targets : List NodeId}
    (ht : t.Good scope known) (ho : o.Good scope known host t.sent) :
    (c.opened targets host t o).talk.Good scope known ∧
      (c.opened targets host t o).stage.Good scope known (c.opened targets host t o).talk.sent := by
  unfold opened
  split
  · exact ⟨ht, ho⟩
  · exact ⟨ht, trivial⟩
  · exact ⟨ht, trivial⟩
  · exact ⟨ht, ho⟩

theorem ServiceCall.good_step {service : ServiceName} {argv : List String} {c c' : ServiceCall root}
    {e : CallEvent root} (hc : c.talk.Good scope known ∧ c.stage.Good scope known c.talk.sent)
    (hs : c.step service argv idToken e = some c') :
    c'.talk.Good scope known ∧ c'.stage.Good scope known c'.talk.sent := by
  obtain ⟨ht, hstage⟩ := hc
  cases e with
  | connect peer =>
    simp only [step] at hs
    split at hs
    · cases hs
      exact ⟨ht, trivial⟩
    · split at hs <;> cases hs <;> exact ⟨ht, trivial⟩
    · cases hs
  | speak e =>
    simp only [step] at hs
    split at hs
    · rename_i targets host opening hspeaking
      obtain ⟨⟨t', o'⟩, hstep, rfl⟩ := Option.map_eq_some_iff.mp hs
      rw [hspeaking] at hstage
      obtain ⟨ht', ho'⟩ := Opening.good_step ht hstage (Opening.moves_of_step hstep)
      exact good_opened ht' ho'
    · cases hs
  | answer a =>
    simp only [step] at hs
    split at hs
    · rename_i host on proof hawaits
      cases hs
      rw [hawaits] at hstage
      refine ⟨ht, ?_⟩
      show (c.answered service host on proof a).Good scope known c.talk.sent
      unfold answered
      split
      · split
        · exact hstage
        · trivial
      all_goals trivial
    · cases hs
  | stdin chunk =>
    simp only [step] at hs
    split at hs
    · rename_i host on proof ack hbridges
      cases hs
      rw [hbridges] at hstage
      have hgreeted : Greeted c.talk.sent host := hstage
      refine ⟨ht.send hgreeted, ?_⟩
      show CallStage.Good scope known (Sent.stdin host chunk :: c.talk.sent) c.stage
      rw [hbridges]
      exact hgreeted.cons _
    · cases hs
  | ends result =>
    simp only [step] at hs
    split at hs
    · cases hs
      exact ⟨ht, trivial⟩
    · cases hs

/-! ## Fetches -/

/-- What each stage of a fetch has for its next frame. -/
def FetchStage.Good (scope : Scope) (known : List NodeId) (sent : List (Sent root)) :
    FetchStage root → Prop
  | .speaking host opening => opening.Good scope known host sent
  | .awaits host => Greeted sent host
  | .stored host _ _ => Greeted sent host
  | _ => True

theorem InboxFetch.good_opened {f : InboxFetch root} (ht : t.Good scope known)
    (ho : o.Good scope known host t.sent) :
    (f.opened host t o).talk.Good scope known ∧
      (f.opened host t o).stage.Good scope known (f.opened host t o).talk.sent := by
  unfold opened
  split
  · exact ⟨ht, ho⟩
  · exact ⟨ht, trivial⟩
  · exact ⟨ht, trivial⟩
  · exact ⟨ht, ho⟩

theorem InboxFetch.good_step {f f' : InboxFetch root} {e : FetchEvent root}
    (hf : f.talk.Good scope known ∧ f.stage.Good scope known f.talk.sent)
    (hs : f.step idToken e = some f') :
    f'.talk.Good scope known ∧ f'.stage.Good scope known f'.talk.sent := by
  obtain ⟨ht, hstage⟩ := hf
  cases e with
  | connect peer =>
    simp only [step] at hs
    split at hs
    · split at hs <;> cases hs <;> exact ⟨ht, trivial⟩
    · cases hs
  | speak e =>
    simp only [step] at hs
    split at hs
    · rename_i host opening hspeaking
      obtain ⟨⟨t', o'⟩, hstep, rfl⟩ := Option.map_eq_some_iff.mp hs
      rw [hspeaking] at hstage
      obtain ⟨ht', ho'⟩ := Opening.good_step ht hstage (Opening.moves_of_step hstep)
      exact good_opened ht' ho'
    · cases hs
  | answer a =>
    simp only [step] at hs
    split at hs
    · rename_i host hawaits
      cases hs
      rw [hawaits] at hstage
      unfold answered
      split
      · exact ⟨ht, hstage⟩
      all_goals exact ⟨ht, trivial⟩
    · cases hs
  | wrote result =>
    simp only [step] at hs
    split at hs
    · rename_i host ids full hstored
      rw [hstored] at hstage
      have hsent := ht.send (s := .ack host ids) hstage
      split at hs
      · cases hs
        exact ⟨hsent, trivial⟩
      · split at hs <;> cases hs <;> exact ⟨hsent, trivial⟩
    · cases hs

end

/-! ## Every run -/

/-- What the caller knew when a `Hello` went to the host: an entry of its view that the root signed
lists the host, and a word it held or was shown verifies for the view's head, which the root signed,
and was current when the caller checked; its signer is a directory of that head, and is the host
only if the head lists the host alone and the caller knows of no other directory. -/
structure Grounds.Justified (g : Grounds root) (scope : Scope) (known : List NodeId)
    (host : NodeId) : Prop where
  lists : ∃ e ∈ g.held.view.entries, e.verify root = .ok () ∧ host ∈ e.service.hosts ∧
    ∀ name, scope = .service name → e.name = name
  head : g.held.view.head.verify root = .ok ()
  vouched : ∃ f, (f ∈ g.held.fresh.iter ∨ ∃ proof, g.shown = some proof ∧ f ∈ proof.fresh) ∧
    f.verify g.held.view.head = .ok () ∧ f.isCurrent g.now = true ∧
    f.directory ∈ g.held.directories ∧
    (f.directory = host → g.held.directories = [host] ∧ ∀ d ∈ known, d = host)

/-- The bytes hashed to compare a head that was shown with the view's. -/
def comparedHeads (sent : List (Sent root)) : Set (List UInt8) :=
  {m | ∃ host version token on at_ proof, Sent.hello host version token on at_ ∈ sent ∧
    on.shown = some proof ∧ (m = proof.head.hashBytes ∨ m = on.held.view.head.hashBytes)}

theorem Scope.Lists.exists_mem {scope : Scope} {held : HeldView root} {host : NodeId}
    (h : scope.Lists held.view host) : ∃ e ∈ held.view.entries, e.verify root = .ok () ∧
      host ∈ e.service.hosts ∧ ∀ name, scope = .service name → e.name = name := by
  cases scope with
  | service name =>
    obtain ⟨e, he, hhost⟩ := h
    obtain ⟨hmem, hname⟩ := View.entry_mem he
    refine ⟨e, hmem, (held.verify_of_mem hmem).1, hhost, fun name' hn => ?_⟩
    rw [hname]
    exact Scope.service.inj hn
  | anyService =>
    obtain ⟨e, hmem, hhost⟩ := h
    exact ⟨e, hmem, (held.verify_of_mem hmem).1, hhost, fun name hn => absurd hn (by simp)⟩

/-- A host that was cleared, where the heads compared by hash are one. -/
theorem Grounds.justified_of_cleared {g : Grounds root} {scope : Scope} {known : List NodeId}
    {host : NodeId} (h : g.Cleared scope known host)
    (hhead : ∀ proof, g.shown = some proof → proof.head.hash = g.held.view.head.hash →
      proof.head = g.held.view.head) : g.Justified scope known host := by
  obtain ⟨hlists, hvouched⟩ := h
  refine ⟨hlists.exists_mem, g.held.verify_head, ?_⟩
  have hword : ∃ f, (f ∈ g.held.fresh.iter ∨ ∃ proof, g.shown = some proof ∧ f ∈ proof.fresh) ∧
      f.vouches g.held.view.head host g.now = .ok () ∧ MaySpeakFor f known host := by
    cases hs : g.shown with
    | none =>
      rw [hs] at hvouched
      obtain ⟨f, hf, hv, hspeak⟩ := hvouched
      exact ⟨f, .inl hf, hv, hspeak⟩
    | some proof =>
      rw [hs] at hvouched
      obtain ⟨-, -, hhash, f, hf, hv, hspeak⟩ := hvouched
      rw [hhead proof hs hhash] at hv
      exact ⟨f, .inr ⟨proof, rfl, hf⟩, hv, hspeak⟩
  obtain ⟨f, hf, hv, hspeak⟩ := hword
  obtain ⟨hverify, hcurrent, hself⟩ := Fresh.vouches_eq_ok.mp hv
  obtain ⟨-, -, -, hdir, -⟩ := Fresh.verify_eq_ok.mp hverify
  exact ⟨f, hf, hverify, hcurrent, hdir, fun he => ⟨hself he, hspeak he⟩⟩

theorem Licensed.justified {scope : Scope} {known : List NodeId} {sent : List (Sent root)}
    (h : Licensed (fun host on => on.Cleared scope known host) sent)
    (hcoll : NoCollision (comparedHeads sent)) :
    Licensed (fun host on => on.Justified scope known host) sent := by
  refine h.imp fun host version token on at_ hm hcleared => ?_
  refine Grounds.justified_of_cleared hcleared fun proof hshown hhash => ?_
  have hbytes := hcoll.eq ⟨host, version, token, on, at_, proof, hm, hshown, .inl rfl⟩
    ⟨host, version, token, on, at_, proof, hm, hshown, .inr rfl⟩ hhash
  exact hashBytes_inj hbytes

/-- **Who hears the token.** In every run of a call over any hosts, and of a fetch, a `Hello` goes
only to a host the caller's view and a directory's word, as the caller checked them, allow; and any
other frame but `Open` only to a host that was sent one. -/
theorem token_release (vouch : Vouching root) (idToken : IdToken) :
    (∀ (service : ServiceName) (argv : List String) (targets : List NodeId)
      (es : List (CallEvent root)) (c : ServiceCall root),
      run (ServiceCall.step service argv idToken) (.start vouch targets) es = some c →
      NoCollision (comparedHeads c.talk.sent) →
      Licensed (fun host on => on.Justified vouch.scope vouch.known host) c.talk.sent) ∧
    ∀ (waitMs : Nat) (es : List (FetchEvent root)) (f : InboxFetch root),
      run (InboxFetch.step idToken) (.start vouch waitMs) es = some f →
      NoCollision (comparedHeads f.talk.sent) →
      Licensed (fun host on => on.Justified vouch.scope vouch.known host) f.talk.sent := by
  constructor
  · intro service argv targets es c hrun hcoll
    have hstart : (ServiceCall.start vouch targets).talk.Good vouch.scope vouch.known :=
      ⟨rfl, rfl, trivial⟩
    have hgood := run_invariant (P := fun c : ServiceCall root =>
      c.talk.Good vouch.scope vouch.known ∧ c.stage.Good vouch.scope vouch.known c.talk.sent)
      (fun _ _ _ hc hs => ServiceCall.good_step hc hs) ⟨hstart, trivial⟩ hrun
    exact hgood.1.licensed.justified hcoll
  · intro waitMs es f hrun hcoll
    have hstart : (InboxFetch.start vouch waitMs).talk.Good vouch.scope vouch.known :=
      ⟨rfl, rfl, trivial⟩
    have hgood := run_invariant (P := fun f : InboxFetch root =>
      f.talk.Good vouch.scope vouch.known ∧ f.stage.Good vouch.scope vouch.known f.talk.sent)
      (fun _ _ _ hf hs => InboxFetch.good_step hf hs) ⟨hstart, trivial⟩ hrun
    exact hgood.1.licensed.justified hcoll

/-! ## The two ways to speak -/

/-- The caller speaks to its first target at once, before the host has sent anything. -/
def speaksAtOnce (host : NodeId) (now : Int64) : List (CallEvent root) :=
  [.connect (.ok host), .speak (.clock now), .speak (.wrote now (.ok ())),
    .speak (.wrote now (.ok ()))]

theorem run_speaksAtOnce {vouch : Vouching root} {host : NodeId} {now : Int64}
    (hready : vouch.ready host now = true) (service : ServiceName) (argv : List String)
    (idToken : IdToken) :
    run (ServiceCall.step service argv idToken) (.start vouch [host]) (speaksAtOnce host now) =
      some {
        talk := {
          vouch
          sent := [.invoke host service argv, .hello host (some vouch.version) idToken
            ⟨vouch.held, now, vouch.held, none⟩ now] }
        failures := []
        lapsed := 0
        stage := .speaking [] host (.waits (some ⟨vouch.held, now, vouch.held, none⟩)) } := by
  simp [run, speaksAtOnce, ServiceCall.step, ServiceCall.start, Opening.step, ServiceCall.opened,
    hready, Talk.send, Errand.helloVersion, Errand.request]

/-- The caller is shown the host's proof, and checks it, before it says anything. -/
def speaksAfter (host : NodeId) (now : Int64) (proof : HostProof) : List (CallEvent root) :=
  [.connect (.ok host), .speak (.clock now), .speak (.wrote now (.ok ())),
    .speak (.first (.proof proof) now .timedOut), .speak (.wrote now (.ok ())),
    .speak (.wrote now (.ok ()))]

theorem run_speaksAfter {vouch v : Vouching root} {host : NodeId} {now : Int64} {proof : HostProof}
    (hready : vouch.ready host now = false) (hcheck : vouch.check host proof now true .timedOut = .ok v)
    (service : ServiceName) (argv : List String) (idToken : IdToken) :
    run (ServiceCall.step service argv idToken) (.start vouch [host]) (speaksAfter host now proof) =
      some {
        talk := {
          vouch := v
          sent := [.invoke host service argv, .hello host (some v.version) idToken
            ⟨vouch.held, now, v.held, some proof⟩ now, .opens host] }
        failures := []
        lapsed := 0
        stage := .awaits host ⟨vouch.held, now, v.held, some proof⟩ proof } := by
  simp [run, speaksAfter, ServiceCall.step, ServiceCall.start, Opening.step, Opening.heard,
    ServiceCall.opened, hready, hcheck, Talk.send, Errand.helloVersion, Errand.request]

end

/-! ## A caller with a word -/

section Sample

attribute [local instance] Crypto.plain

/-- The view of version 1, with some words. -/
def sampleHeld (fresh : FreshSet) : HeldView (nodeId sampleRoot) where
  view := ⟨sampleSigned.head, [sampleEntry]⟩
  verified := verify_singleton (edits_sample.verify) (by simp) signedIn_sampleEntry
    (show (1 : UInt64) ≤ 1 by decide)
  fresh
  checked := 0
  seen := 0

/-- A caller of the service. -/
def sampleVouching (fresh : FreshSet) : Vouching (nodeId sampleRoot) :=
  ⟨sampleHeld fresh, .service sampleName, false, []⟩

/-- The directory's word for version 1, which vouches for node 2. -/
theorem exists_word_sample : ∃ f : Fresh, f.vouches sampleSigned.head (sampleNode 2) 5 = .ok () ∧
    f.directory ≠ sampleNode 2 := by
  have hsign : ∃ f, Fresh.sign (3 : UInt8) sampleSigned.head 0 100 = .ok f := ⟨_, rfl⟩
  obtain ⟨f, hf⟩ := hsign
  obtain ⟨hverify, hdir, hat, huntil⟩ := Fresh.of_sign hf
  have hother : f.directory ≠ sampleNode 2 := by
    rw [hdir]
    decide
  have hcurrent : f.isCurrent 5 = true := by
    simp only [Fresh.isCurrent, hat, huntil]
    decide
  exact ⟨f, Fresh.vouches_eq_ok.mpr ⟨hverify, hcurrent, fun he => absurd he hother⟩, hother⟩

/-- A caller that holds it may speak to node 2 at once. -/
theorem exists_ready_sample : ∃ w : VerifiedFresh,
    (sampleVouching ⟨[w]⟩).ready (sampleNode 2) 5 = true := by
  obtain ⟨f, hvouches, hother⟩ := exists_word_sample
  refine ⟨⟨f, _, (Fresh.vouches_eq_ok.mp hvouches).1⟩, Vouching.ready_iff.mpr
    ⟨⟨sampleEntry, rfl, by decide⟩, f, ?_, fun he => absurd he hother⟩⟩
  have hok : isOk (f.vouches sampleSigned.head (sampleNode 2) 5) = true := isOk_unit_iff.mpr hvouches
  simp [FreshSet.vouching, sampleVouching, sampleHeld, hok]

/-- A caller that holds no word speaks to node 2 once that shows it. -/
theorem exists_check_sample : ∃ (proof : HostProof) (v : Vouching (nodeId sampleRoot)),
    (sampleVouching FreshSet.empty).check (sampleNode 2) proof 5 true .timedOut = .ok v ∧
      proof.head = sampleSigned.head ∧ v.held.view.head = sampleSigned.head := by
  obtain ⟨f, hvouches, hother⟩ := exists_word_sample
  have hvouching : HostProof.vouching ⟨sampleSigned.head, [f]⟩ (sampleNode 2) 5 = .ok f := by
    simp only [HostProof.vouching, HostProof.firstVouching, hvouches]
  have hhead := (SignedPolicy.verify_eq_ok.mp verify_sampleSigned).1
  have hchecks : HostProof.check ⟨sampleSigned.head, [f]⟩ (nodeId sampleRoot)
      (sampleVouching FreshSet.empty).held.view.head (sampleNode 2) 5 = .ok .same := by
    have hfresh : sampleSigned.head.checkFresh 5 = .ok () := by decide
    have hsame : (sampleVouching FreshSet.empty).held.view.head = sampleSigned.head := rfl
    simp [HostProof.check, hhead, hfresh, hvouching, hsame, ensure, MAX_FRESH_SET]
  have hmay : (sampleVouching FreshSet.empty).mayTell (sampleNode 2) ⟨sampleSigned.head, [f]⟩ 5 =
      .ok () := by
    have htakes : (sampleVouching FreshSet.empty).takes (sampleNode 2) f = true := by
      simp [Vouching.takes, hother]
    have hserves : (sampleVouching FreshSet.empty).serves (sampleNode 2) = true := by decide
    simp only [Vouching.mayTell, hvouching, Except.toOption, Option.all_some, ensure_of htakes, ok_bind,
      ensure_of hserves]
  refine ⟨⟨sampleSigned.head, [f]⟩, (sampleVouching FreshSet.empty).learnFrom (sampleNode 2)
    ⟨sampleSigned.head, [f]⟩ 5, ?_, rfl, ?_⟩
  · simp only [Vouching.check, if_true, Vouching.checkBefore, hchecks, Vouching.keeping, mapErr, ok_bind,
      pure_bind, hmay]
    rfl
  · rw [Vouching.learnFrom_view]
    rfl

/-- One caller speaks at once, another when it has checked the host's proof. -/
theorem token_release_sample : ∃ c d : ServiceCall (nodeId sampleRoot),
    Greeted c.talk.sent (sampleNode 2) ∧
      Licensed (fun host on => on.Justified (.service sampleName) [] host) c.talk.sent ∧
    Greeted d.talk.sent (sampleNode 2) ∧
      Licensed (fun host on => on.Justified (.service sampleName) [] host) d.talk.sent := by
  obtain ⟨w, hready⟩ := exists_ready_sample
  have hrun := run_speaksAtOnce hready sampleName [] "token"
  obtain ⟨proof, v, hcheck, hhead, hview⟩ := exists_check_sample
  have hrun' := run_speaksAfter (by decide) hcheck sampleName [] "token"
  refine ⟨_, _, ?_, (token_release (sampleVouching ⟨[w]⟩) "token").1 sampleName [] [sampleNode 2] _ _ hrun ?_,
    ?_, (token_release (sampleVouching FreshSet.empty) "token").1 sampleName [] [sampleNode 2] _ _ hrun' ?_⟩
  · exact ⟨_, _, _, _, List.mem_cons_of_mem _ List.mem_cons_self⟩
  · -- no head was compared
    rintro m ⟨host, version, token, on, at_, proof, hm, hshown, -⟩
    simp only [List.mem_cons, List.not_mem_nil, or_false, reduceCtorEq, false_or,
      Sent.hello.injEq] at hm
    obtain ⟨-, -, -, rfl, -⟩ := hm
    cases hshown
  · exact ⟨_, _, _, _, List.mem_cons_of_mem _ List.mem_cons_self⟩
  · -- the two heads compared are one
    have hone : ∀ m ∈ comparedHeads [.invoke (sampleNode 2) sampleName [], .hello (sampleNode 2)
        (some v.version) "token" ⟨(sampleVouching FreshSet.empty).held, 5, v.held, some proof⟩ 5,
        .opens (sampleNode 2)], m = sampleSigned.head.hashBytes := by
      rintro m ⟨host, version, token, on, at_, shown, hm, hshown, hbytes⟩
      simp only [List.mem_cons, List.not_mem_nil, or_false, reduceCtorEq, false_or,
        Sent.hello.injEq] at hm
      obtain ⟨-, -, -, rfl, -⟩ := hm
      obtain rfl := Option.some.inj hshown
      rcases hbytes with rfl | rfl
      · rw [hhead]
      · rw [hview]
    exact fun m hm m' hm' _ => (hone m hm).trans (hone m' hm').symm

end Sample

end Wires
