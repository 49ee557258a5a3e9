import Wires.Impl.McpFollow
import Wires.Proof.Mcp
import Wires.Proof.Proving
import Wires.Proof.Release
import Wires.Proof.StoredView

/-!
# What the tool list follows

Once the mapper and the server have caught up (`Following.Settled`), the server
lists the services of the poll's view (`Good.services_of_settled`). A round
changes that view only where a directory gives one; so a view given reaches the
list, a round in which no directory decides leaves it alone, and so does one in
which a directory refuses the node admission: the list is empty after such a
round just if it was before (`revocation_reaches`).
-/

namespace Wires

namespace Following

section

variable [Crypto]

section

variable [Web] [Jaq] {root : NodeId} {s t u : Following root} {e : FollowingEvent}

/-! ## Rounds -/

/-- The view a round brings. -/
def brings (s : Following root) (o : Outside) : Option (HeldView root) :=
  (fetch o.joined s.held o.now o.turns o.last).toOption

/-- No directory gives a view in the round, and one whose proof checked out (`told_vouched`) refuses
this node admission. -/
def Refused (s : Following root) (o : Outside) : Prop :=
  s.brings o = none ∧ ∃ p ∈ told o.joined s.held (takeView s.held o.now) o.turns,
    p.opened.answer = .ok (.denied NOT_ADMITTED)

omit [Web] [Jaq] in
/-- That is when the error of `fetch` says so. -/
theorem refused_iff {o : Outside} : s.Refused o ↔ ∃ why,
    fetch o.joined s.held o.now o.turns o.last =
      .error ["a directory said this node is not admitted to the network", why] := by
  unfold Refused brings fetch
  cases hask : askProven o.joined s.held (takeView s.held o.now) o.turns o.last with
  | ok fetched => simp [Except.toOption]
  | error out =>
    rw [← notAdmitted_iff hask]
    by_cases h : out.notAdmitted = true
    · simp [h, Except.toOption]
    · simp [h]

/-- What the server lists once it has caught up. -/
def listing (s : Following root) : List ViewService :=
  (s.held.map fun h => servicesIn h.view).getD []

/-- The mapper and the server have seen all there is to see. -/
def Settled (s : Following root) : Prop :=
  s.mapped = s.views.version ∧ s.seen = s.tools.version

omit [Web] [Jaq] in
theorem polling_eq (file : ViewFile) (o : Outside) : ((polling s.held true o).alone file).2 =
    (s.brings o).map fun h => { h with seen := (s.held.map (·.seen)).getD 0 } := by
  unfold polling brings
  cases fetch o.joined s.held o.now o.turns o.last with
  | error e => rfl
  | ok next =>
    simp only [if_true]
    exact (alone_writing ..).1

/-- What a step does. -/
inductive Steps (s : Following root) : FollowingEvent → Following root → Prop
  | brings {file : ViewFile} {o : Outside} {next : HeldView root} {seen : StateVersion}
    (h : s.brings o = some next) : Steps s (.round file o) { s with
      held := some { next with seen }, views := s.views.send (some { next with seen }) }
  | keeps {file : ViewFile} {o : Outside} (h : s.brings o = none) : Steps s (.round file o) s
  | maps {held : HeldView root} (hv : s.views.value = some held) : Steps s .maps { s with
      mapped := s.views.version, tools := s.tools.send (servicesIn held.view) }
  | passes (hne : s.mapped ≠ s.views.version) (hv : s.views.value = none) :
    Steps s .maps { s with mapped := s.views.version }
  | follows {notes : Nat} : Steps s .follows { s with
      seen := s.tools.version, server := { s.server with services := s.tools.value }, notes }
  | line {line : String} {server : McpServer} (h : server.services = s.server.services) :
    Steps s (.line line) { s with server }

omit [Crypto] in
theorem services_handle {s : McpServer} (msg : Json) : (s.handle msg).1.services = s.services := by
  unfold McpServer.handle
  split
  · dsimp only
    split
    · rfl
    · split
      · rfl
      · split
        · rfl
        · split_ifs
          · rfl
          · rfl
          · rfl
          · rfl
          · split <;> rfl
          · rfl
  · rfl

omit [Crypto] in
theorem services_handleLine {s : McpServer} (line : String) :
    (s.handleLine line).1.services = s.services := by
  unfold McpServer.handleLine
  split_ifs
  · rfl
  · split
    · exact services_handle _
    · rfl

theorem steps_of_step (h : s.step e = some t) : s.Steps e t := by
  cases e with
  | round file o =>
    simp only [step, polling_eq] at h
    cases hb : s.brings o with
    | none =>
      rw [hb] at h
      obtain rfl := Option.some.inj h
      exact .keeps hb
    | some next =>
      rw [hb] at h
      obtain rfl := Option.some.inj h
      exact .brings hb
  | maps =>
    simp only [step] at h
    split_ifs at h with hne
    split at h
    · rename_i held hv
      obtain rfl := Option.some.inj h
      exact .maps hv
    · rename_i hv
      obtain rfl := Option.some.inj h
      exact .passes hne hv
  | follows =>
    simp only [step] at h
    split_ifs at h
    · obtain rfl := Option.some.inj h
      exact .follows
    · obtain rfl := Option.some.inj h
      exact .follows
  | line line =>
    obtain rfl := Option.some.inj h
    exact .line (services_handleLine line)

/-! ## Catching up -/

/-- What the channels and the server have to do with the poll's view. -/
structure Good (s : Following root) : Prop where
  value : s.views.value = s.held
  fresh : s.held = none → s.mapped = s.views.version
  mapped : s.mapped = s.views.version → s.tools.value = s.listing
  seen : s.seen = s.tools.version → s.server.services = s.tools.value
  mapped_le : s.mapped ≤ s.views.version
  seen_le : s.seen ≤ s.tools.version

omit [Web] [Jaq] in
theorem good_start (initial : Option (HeldView root)) : Good (start initial) where
  value := rfl
  fresh _ := rfl
  mapped _ := rfl
  seen _ := rfl
  mapped_le := le_rfl
  seen_le := le_rfl

omit [Web] [Jaq] in
theorem Good.services_of_settled (h : Good s) (hs : s.Settled) : s.server.services = s.listing :=
  (h.seen hs.2).trans (h.mapped hs.1)

theorem Good.step (h : Good s) (hs : s.step e = some t) : Good t := by
  cases steps_of_step hs with
  | @brings _ _ next _ _ =>
    refine ⟨rfl, nofun, fun hm => ?_, h.seen, ?_, h.seen_le⟩
    · have hm : s.mapped = s.views.version + 1 := hm
      have hle := h.mapped_le
      omega
    · exact h.mapped_le.trans (Nat.le_succ _)
  | keeps => exact h
  | @maps held hv =>
    refine ⟨h.value, fun _ => rfl, fun _ => ?_, fun hseen => ?_, le_rfl, ?_⟩
    · have hheld : s.held = some held := h.value.symm.trans hv
      show servicesIn held.view = (s.held.map fun h => servicesIn h.view).getD []
      rw [hheld]
      rfl
    · have hseen : s.seen = s.tools.version + 1 := hseen
      have hle := h.seen_le
      omega
    · exact h.seen_le.trans (Nat.le_succ _)
  | passes hne hv => exact absurd (h.fresh (h.value.symm.trans hv)) hne
  | follows => exact ⟨h.value, h.fresh, h.mapped, fun _ => rfl, h.mapped_le, le_rfl⟩
  | line hl => exact ⟨h.value, h.fresh, h.mapped, fun hseen => hl.trans (h.seen hseen), h.mapped_le,
      h.seen_le⟩

theorem good_of_run {initial : Option (HeldView root)} {es : List FollowingEvent}
    (h : run step (start initial) es = some s) : Good s :=
  run_invariant (fun _ _ _ hg he => hg.step he) (good_start initial) h

/-- No round of a run brings a view. -/
def Quiet (s : Following root) (es : List FollowingEvent) : Prop :=
  ∀ before file o after t, es = before ++ .round file o :: after → run step s before = some t →
    t.brings o = none

/-- Until a view comes, the poll keeps the one it has. -/
theorem held_of_quiet {es : List FollowingEvent} (hquiet : Quiet s es) (h : run step s es = some t) :
    t.held = s.held := by
  refine run_invariant_of (P := fun t => t.held = s.held)
    (C := fun u e => ∀ file o, e = .round file o → u.brings o = none) ?_ rfl ?_ h
  · intro u e v hu hC he
    cases steps_of_step he with
    | brings hb =>
      rw [hC _ _ rfl] at hb
      cases hb
    | keeps => exact hu
    | maps => exact hu
    | passes => exact hu
    | follows => exact hu
    | line => exact hu
  · rintro before e after u heq hu file o rfl
    exact hquiet before file o after u heq hu

/-- A round of the poll, in any run: from then until a later round brings a view, the server, once it
has caught up, lists the services of the view the round brought; if it brought none, it lists what
it did before. So after a round in which a directory refused this node admission and none gave a
view, it lists nothing just if it listed nothing before. -/
theorem revocation_reaches (initial : Option (HeldView root)) (es es' : List FollowingEvent)
    (s t u : Following root) (file : ViewFile) (o : Outside)
    (hs : run step (start initial) es = some s) (ht : s.step (.round file o) = some t)
    (hquiet : Quiet t es') (hu : run step t es' = some u) (hsettled : u.Settled) :
    (s.Settled → s.server.services = s.listing) ∧
    (∀ next, s.brings o = some next → u.server.services = servicesIn next.view) ∧
    (s.brings o = none → ¬s.Refused o → u.server.services = s.listing) ∧
    (s.Refused o → (u.server.services = [] ↔ s.listing = [])) := by
  have hgood := good_of_run hs
  have hlist : u.server.services = t.listing := by
    have hheld := held_of_quiet hquiet hu
    have hgu : Good u := run_invariant (fun _ _ _ hg he => hg.step he) (hgood.step ht) hu
    rw [hgu.services_of_settled hsettled, listing, listing, hheld]
  have hkeeps : s.brings o = none → u.server.services = s.listing := by
    intro hb
    cases steps_of_step ht with
    | brings hb' =>
      rw [hb] at hb'
      cases hb'
    | keeps => exact hlist
  refine ⟨hgood.services_of_settled, fun next hb => ?_, fun hb _ => hkeeps hb, fun hr => ?_⟩
  · cases steps_of_step ht with
    | brings hb' =>
      obtain rfl := Option.some.inj (hb.symm.trans hb')
      exact hlist
    | keeps hb' =>
      rw [hb] at hb'
      cases hb'
  · rw [hkeeps hr.1]

end

/-! ## A refusal that is lost -/

/-- A round in which a directory shows the head of the view held, and refuses the node admission. -/
theorem exists_refused {root : NodeId} {held : HeldView root} (hshown : Vouchable held.view.head)
    (hempty : held.fresh = FreshSet.empty) :
    ∃ o : Outside, ∀ s : Following root, s.held = some held → s.Refused o := by
  obtain ⟨now, turns, why, hfetch⟩ := exists_fetch_refused held.verify_head hshown (some held)
    fun old hold => by
      obtain rfl := Option.some.inj hold
      exact ⟨rfl, hempty⟩
  refine ⟨⟨.absent, [], none, now, turns, now, ⟨fun _ => none, .ok ()⟩⟩, fun s hs => ?_⟩
  refine refused_iff.mpr ⟨why, ?_⟩
  show fetch [] s.held now turns now = _
  rw [hs]
  exact hfetch

end

section Sample

attribute [local instance] Crypto.plain Web.plain McpServer.jaqPlain

/-- A server that lists the one service of the view of version 1. -/
def listsOne : Following (nodeId sampleRoot) := start (some (sampleHeld FreshSet.empty))

theorem settled_listsOne : listsOne.Settled := ⟨rfl, rfl⟩

/-- A directory refuses the node admission. -/
theorem exists_refused_sample : ∃ o : Outside, listsOne.Refused o ∧
    listsOne.step (.round .absent o) = some listsOne := by
  obtain ⟨o, ho⟩ := @exists_refused _ _ (sampleHeld FreshSet.empty) vouchable_sampleSigned rfl
  have hrefused := ho listsOne rfl
  refine ⟨o, hrefused, ?_⟩
  simp only [step, polling_eq, hrefused.1, Option.map_none]

theorem quiet_nil : Quiet listsOne [] := by
  intro before file o after t heq
  simp at heq

theorem revocation_reaches_sample : ∃ o : Outside, listsOne.Refused o ∧
    (listsOne.server.services = [] ↔ listsOne.listing = []) := by
  obtain ⟨o, hrefused, hstep⟩ := exists_refused_sample
  obtain ⟨-, -, -, hlist⟩ := revocation_reaches (some (sampleHeld FreshSet.empty)) [] [] listsOne
    listsOne listsOne .absent o rfl hstep quiet_nil rfl settled_listsOne
  exact ⟨o, hrefused, hlist hrefused⟩

/-- The tools of a node that a directory refuses admission stay listed. -/
theorem list_kept : ¬∀ (initial : Option (HeldView (nodeId sampleRoot))) (file : ViewFile)
    (o : Outside) (t : Following (nodeId sampleRoot)), (start initial).Refused o →
    (start initial).step (.round file o) = some t → t.Settled → t.server.services = [] := by
  intro hall
  obtain ⟨o, hrefused, hstep⟩ := exists_refused_sample
  have hnil := hall (some (sampleHeld FreshSet.empty)) .absent o listsOne hrefused hstep
    settled_listsOne
  cases hnil

end Sample

end Following

end Wires
