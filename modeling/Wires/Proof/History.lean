import Wires.Impl.Session
import Wires.Proof.Deciders
import Wires.Proof.Fetching

/-!
# Entries across a signing history

An entry is signed on its own and keeps the version it last changed at, so
nothing in it or in a newer head says that an edit has since replaced or
removed it. A view under a policy's head holds only that policy's entries
exactly when no such edit was made (`view_current`), and an ack is sound about
a host exactly when the host was not dropped (`assigns_sound`); the histories
with an edit of either kind are counterexamples (`not_view_current`,
`not_assigns_sound`). In a chain of edits (`Edits`) these are conditions on the
policies before it alone.
-/

namespace Wires

section

variable [Crypto]

/-! ## Edits -/

/-- The policies one root signed, newest first: each after the first is signed from the one before
it, at a higher version (`sign_next`). -/
inductive Edits (root : NodeIdentity) : List SignedPolicy → Prop where
  | first {p : Policy} {s : SignedPolicy} (signed : p.sign root = .ok s) : Edits root [s]
  | edit {p : Policy} {s prev : SignedPolicy} {older : List SignedPolicy}
    (before : Edits root (prev :: older)) (signed : p.signAfter root prev = .ok s)
    (newer : prev.version < s.version) : Edits root (s :: prev :: older)

namespace Edits

variable {root : NodeIdentity} {history newer older : List SignedPolicy} {s : SignedPolicy}

theorem verify (h : Edits root history) : ∀ p ∈ history, p.verify (nodeId root) = .ok () := by
  induction h with
  | first signed =>
    obtain ⟨hr, hv, rfl⟩ := Policy.signWith_eq_ok.mp signed
    intro p hp
    rw [List.mem_singleton.mp hp]
    exact Policy.verify_signed hr hv (by simp)
  | @edit p s prev older before signed newer ih =>
    intro q hq
    rcases List.mem_cons.mp hq with rfl | hq
    · obtain ⟨hr, hv, rfl⟩ := Policy.signWith_eq_ok.mp signed
      refine Policy.verify_signed hr hv fun prev' hp => ?_
      obtain rfl := Option.mem_some_iff.mp hp
      exact ⟨nodeId root, ih prev List.mem_cons_self⟩
    · exact ih q hq

/-- An entry of an edit is one of the policy before it, or is signed at the edit's version. -/
theorem mem_or_version {p : Policy} {prev : SignedPolicy} (hprev : Ordered prev.items)
    (signed : p.signAfter root prev = .ok s) {e : SignedEntry} (he : e ∈ s.entries) :
    e ∈ prev.entries ∨ e.version = s.version := by
  obtain ⟨hr, -, rfl⟩ := Policy.signWith_eq_ok.mp signed
  rw [Policy.entries_signed] at he
  obtain ⟨-, -, -, heq⟩ := Policy.mem_signedEntries hr he
  obtain ⟨k, hk, -, -, hek⟩ | ⟨-, hnew⟩ :=
    Policy.entryFor_cases p root (Policy.keptEntries (some prev)) e.name e.service
  · left
    rw [heq, hek]
    exact ((Policy.get?_keptEntries hprev).mp hk).1
  · right
    rw [heq, hnew]
    rfl

theorem of_append (h : Edits root (newer ++ s :: older)) : Edits root (s :: older) := by
  induction newer with
  | nil => exact h
  | cons q newer ih =>
    cases newer with
    | nil =>
      cases h with
      | edit before _ _ => exact before
    | cons q' newer =>
      cases h with
      | edit before _ _ => exact ih before

/-- A policy is of a higher version than every one before it. -/
theorem version_lt (h : Edits root (s :: older)) : ∀ p ∈ older, p.version < s.version := by
  induction older generalizing s with
  | nil => simp
  | cons prev older ih =>
    cases h with
    | edit before signed newer =>
      intro p hp
      rcases List.mem_cons.mp hp with rfl | hp
      · exact newer
      · exact (ih before p hp).trans newer

/-- What a later policy has of an earlier version, every policy from that version on has. -/
theorem mem_of_le (h : Edits root (newer ++ s :: older)) :
    ∀ p ∈ newer, ∀ e ∈ p.entries, e.version ≤ s.version → e ∈ s.entries := by
  induction newer with
  | nil => simp
  | cons q newer ih =>
    intro p hp e he hle
    have hlt : s.version < q.version := version_lt h s (by simp)
    -- the policy the newest one was signed from
    have hstep : ∃ prev, (prev = s ∨ prev ∈ newer) ∧ Edits root (newer ++ s :: older) ∧
        (e ∈ q.entries → e ∈ prev.entries ∨ e.version = q.version) := by
      cases newer with
      | nil =>
        cases h with
        | edit before signed _ =>
          have hord := SignedPolicy.ordered_of_verify (before.verify s List.mem_cons_self)
          exact ⟨s, .inl rfl, before, mem_or_version hord signed⟩
      | cons prev newer =>
        cases h with
        | edit before signed _ =>
          have hord := SignedPolicy.ordered_of_verify (before.verify prev List.mem_cons_self)
          exact ⟨prev, .inr List.mem_cons_self, before, mem_or_version hord signed⟩
    obtain ⟨prev, hprev, hrest, hkept⟩ := hstep
    rcases List.mem_cons.mp hp with rfl | hp
    · rcases hkept he with hmem | hv
      · rcases hprev with rfl | hprev
        · exact hmem
        · exact ih hrest prev hprev e hmem hle
      · rw [hv] at hle
        exact absurd hlt (not_lt.mpr hle)
    · exact ih hrest p hp e he hle

end Edits

/-! ## Views -/

/-- The policy has every entry the root signed at or below its version: no edit up to it replaced or
removed one. -/
def KeepsEntries (history : List SignedPolicy) (s : SignedPolicy) : Prop :=
  ∀ p ∈ history, ∀ e ∈ p.entries, e.version ≤ s.version → e ∈ s.entries

/-- In a chain of edits, only the policies before it count. -/
theorem Edits.keepsEntries_iff {root : NodeIdentity} {newer older : List SignedPolicy}
    {s : SignedPolicy} (h : Edits root (newer ++ s :: older)) :
    KeepsEntries (newer ++ s :: older) s ↔ ∀ p ∈ older, ∀ e ∈ p.entries, e ∈ s.entries := by
  constructor
  · intro hkeeps p hp e he
    have hlt := version_lt h.of_append p hp
    have hmem : p ∈ newer ++ s :: older := by simp [hp]
    have hle : e.version ≤ p.version := by
      obtain ⟨-, _, -, -, -, hversion, -⟩ := SignedPolicy.verify_eq_ok.mp (h.verify p hmem)
      exact (hversion e he).2
    exact hkeeps p hmem e he (hle.trans hlt.le)
  · intro hkept p hp e he hle
    rcases List.mem_append.mp hp with hp | hp
    · exact h.mem_of_le p hp e he hle
    · rcases List.mem_cons.mp hp with rfl | hp
      · exact he
      · exact hkept p hp e he

/-- The entry is one the root signed for a policy of the history. -/
def SignedIn (history : List SignedPolicy) (e : SignedEntry) : Prop := ∃ p ∈ history, e ∈ p.entries

/-- Every view under the policy's head that a caller's fetch accepts, made of entries of the
history, has only the policy's own entries. -/
def ViewsCurrent (root : NodeId) (history : List SignedPolicy) (s : SignedPolicy) : Prop :=
  ∀ (known : List NodeId) (held : Option (HeldView root)) (now : Int64) (turns : List Turn)
    (last : Int64) (h : HeldView root), fetch known held now turns last = .ok h →
    h.view.head = s.head → (∀ e ∈ h.view.entries, SignedIn history e) →
    ∀ e ∈ h.view.entries, e ∈ s.entries

/-- A view of one entry, at a version no later than the head's, verifies. -/
theorem verify_singleton {root : NodeId} {history : List SignedPolicy}
    (hhistory : ∀ p ∈ history, p.verify root = .ok ()) {s : SignedPolicy} (hs : s ∈ history)
    {e : SignedEntry} (he : SignedIn history e) (hle : e.version ≤ s.version) :
    (⟨s.head, [e]⟩ : View).verify root = .ok () := by
  obtain ⟨p, hp, he⟩ := he
  obtain ⟨-, _, -, -, -, -, hes, -⟩ := SignedPolicy.verify_eq_ok.mp (hhistory p hp)
  have hhead := (SignedPolicy.verify_eq_ok.mp (hhistory s hs)).1
  obtain ⟨-, -, hfabric, -⟩ := SignedPolicyHead.verify_eq_ok.mp hhead
  obtain ⟨-, -, hefabric, -⟩ := SignedEntry.verify_eq_ok.mp (hes e he)
  refine View.verify_eq_ok.mpr ⟨hhead, by simp, fun e' he' => ?_⟩
  obtain rfl := List.mem_singleton.mp he'
  exact ⟨checkEntryVersion_eq_ok.mpr ⟨hefabric.trans hfabric.symm, hle⟩, hes e' he⟩

/-- **What a fetched view says of its head's policy.** Every accepted view under the head has only
the policy's entries exactly when, if a directory can show that head current at all, no edit up to
it replaced or removed an entry. -/
theorem view_current (root : NodeId) (history : List SignedPolicy)
    (hhistory : ∀ p ∈ history, p.verify root = .ok ()) (s : SignedPolicy) (hs : s ∈ history) :
    ViewsCurrent root history s ↔ (Vouchable s.head → KeepsEntries history s) := by
  constructor
  · intro hcurrent hshown p hp e he hle
    have hsigned : SignedIn history e := ⟨p, hp, he⟩
    have hverify := verify_singleton hhistory hs hsigned hle
    obtain ⟨now, turns, h, hfetch, hview⟩ := exists_fetch hverify hshown
    have := hcurrent [] none now turns now h hfetch (by rw [hview]) (by simp [hview, hsigned])
    exact this e (by simp [hview])
  · intro hkeeps known held now turns last h hfetch hhead hsigned e he
    obtain ⟨proof, pool, dir, asked, hproof, hvouched⟩ := fetch_eq_ok hfetch
    have hshown : Vouchable s.head := by
      rw [← hhead, ← hproof]
      exact vouchable_of_vouched hvouched
    obtain ⟨p, hp, hep⟩ := hsigned e he
    have hle : e.version ≤ s.version := by
      have := (h.verify_of_mem he).2
      rwa [HeldView.version, hhead] at this
    exact hkeeps hshown p hp e hep hle

/-! ## Acks -/

/-- The policy assigns the service to the host. -/
def SignedPolicy.Assigns (s : SignedPolicy) (service : ServiceName) (host : NodeId) : Prop :=
  ∃ p, s.toPolicy = .ok p ∧ p.assigns service host = true

/-- The entry lists the host for the service. -/
def SignedEntry.Lists (e : SignedEntry) (service : ServiceName) (host : NodeId) : Prop :=
  e.name = service ∧ host ∈ e.service.hosts

/-- A policy that verifies assigns what its entries list: it bans no host it lists. -/
theorem assigns_iff {root : NodeId} {s : SignedPolicy} (h : s.verify root = .ok ())
    {service : ServiceName} {host : NodeId} :
    s.Assigns service host ↔ ∃ e ∈ s.entries, e.Lists service host := by
  obtain ⟨-, p, hp, -, -, -, -, hvalid⟩ := SignedPolicy.verify_eq_ok.mp h
  constructor
  · rintro ⟨p', hp', hassigns⟩
    obtain rfl : p = p' := Except.ok.inj (hp.symm.trans hp')
    simp only [Policy.assigns, Bool.and_eq_true, Policy.service, Option.any_eq_true] at hassigns
    obtain ⟨-, svc, hsvc, hhost⟩ := hassigns
    obtain ⟨e, he, hname, rfl⟩ := (get?_services hp).mp hsvc
    exact ⟨e, he, hname, by simpa using hhost⟩
  · rintro ⟨e, he, hname, hhost⟩
    have hsvc : p.services.get? service = some e.service := (get?_services hp).mpr ⟨e, he, hname, rfl⟩
    have hban : p.bansNode host = false := by
      have hentry : p.validateService (service, e.service) = .ok () := by
        simp only [Policy.validate, bind_eq_ok, forEach_eq_ok, exists_const, exists_ok_unit,
          exists_and_right] at hvalid
        exact hvalid.2.2.2.2.2.1 _ (SortedMap.get?_eq_some_iff.mp hsvc)
      simp only [Policy.validateService, bind_eq_ok, refuse_eq_ok, exists_const,
        List.find?_eq_none] at hentry
      simpa using hentry.2.2 host hhost
    refine ⟨p, hp, ?_⟩
    simp [Policy.assigns, hban, Policy.service, hsvc, hhost]

/-- Every ack made of the policy's head and an entry of the history, of a version above the
caller's, is right when it says the host is assigned the service. -/
def AcksSound (root : NodeId) (history : List SignedPolicy) (s : SignedPolicy)
    (held : StateVersion) (service : ServiceName) (host : NodeId) : Prop :=
  ∀ ack : HelloAck, ack.head = some s.head → (∀ e ∈ ack.entry, SignedIn history e) →
    held < ack.stateVersion → ack.assigns root held service host = .ok true →
    s.Assigns service host

/-- The policy assigns the service to the host if any entry the root signed at or below its version
lists the host: no edit up to it dropped the host. -/
def KeepsHost (history : List SignedPolicy) (s : SignedPolicy) (service : ServiceName)
    (host : NodeId) : Prop :=
  ∀ p ∈ history, ∀ e ∈ p.entries, e.version ≤ s.version → e.Lists service host →
    s.Assigns service host

/-- In a chain of edits, only the policies before it count. -/
theorem Edits.keepsHost_iff {root : NodeIdentity} {newer older : List SignedPolicy}
    {s : SignedPolicy} (h : Edits root (newer ++ s :: older)) {service : ServiceName}
    {host : NodeId} : KeepsHost (newer ++ s :: older) s service host ↔
      ∀ p ∈ older, p.Assigns service host → s.Assigns service host := by
  have hverify := h.verify
  have hs := hverify s (by simp)
  constructor
  · intro hkeeps p hp hassigns
    have hmem : p ∈ newer ++ s :: older := by simp [hp]
    obtain ⟨e, he, hlists⟩ := (assigns_iff (hverify p hmem)).mp hassigns
    obtain ⟨-, _, -, -, -, hversion, -⟩ := SignedPolicy.verify_eq_ok.mp (hverify p hmem)
    exact hkeeps p hmem e he ((hversion e he).2.trans (version_lt h.of_append p hp).le) hlists
  · intro hkept p hp e he hle hlists
    rcases List.mem_append.mp hp with hp' | hp'
    · exact (assigns_iff hs).mpr ⟨e, h.mem_of_le p hp' e he hle, hlists⟩
    · rcases List.mem_cons.mp hp' with rfl | hp'
      · exact (assigns_iff hs).mpr ⟨e, he, hlists⟩
      · exact hkept p hp' ((assigns_iff (hverify p hp)).mpr ⟨e, he, hlists⟩)

/-- **What an ack says of its head's policy.** Every accepted ack under the head is right about the
host exactly when, for a caller the policy is newer than, no edit up to it dropped the host. -/
theorem assigns_sound (root : NodeId) (history : List SignedPolicy)
    (hhistory : ∀ p ∈ history, p.verify root = .ok ()) (s : SignedPolicy) (hs : s ∈ history)
    (held : StateVersion) (service : ServiceName) (host : NodeId) :
    AcksSound root history s held service host ↔
      (held < s.version → KeepsHost history s service host) := by
  have hhead := (SignedPolicy.verify_eq_ok.mp (hhistory s hs)).1
  constructor
  · intro hsound hlt p hp e he hle hlists
    have hsigned : SignedIn history e := ⟨p, hp, he⟩
    have hview := verify_singleton hhistory hs hsigned hle
    obtain ⟨-, -, hes⟩ := View.verify_eq_ok.mp hview
    obtain ⟨hversion, hverify⟩ := hes e (by simp)
    refine hsound ⟨s.version, some s.head, some e⟩ rfl (by simpa using hsigned) hlt ?_
    exact HelloAck.assigns_eq_ok_true.mpr
      (.inr ⟨hlt, s.head, e, rfl, rfl, hhead, rfl, hlists.1, hversion, hverify, hlists.2⟩)
  · intro hkeeps ack hack hsigned hlt hassigns
    rcases HelloAck.assigns_eq_ok_true.mp hassigns with hle | ⟨-, hverified⟩
    · exact absurd hlt (not_lt.mpr hle)
    · obtain ⟨head, e, hhead', hentry, -, hversion, hname, hcheck, -, hhost⟩ := hverified
      obtain rfl : s.head = head := Option.some.inj (hack.symm.trans hhead')
      obtain ⟨p, hp, he⟩ := hsigned e hentry
      have hv : ack.stateVersion = s.version := hversion.symm
      have hle : e.version ≤ s.version := (checkEntryVersion_eq_ok.mp hcheck).2
      exact hkeeps (hv ▸ hlt) p hp e he hle ⟨hname, hhost⟩

end

/-! ## An edit that moves a service -/

section Sample

attribute [local instance] Crypto.plain

/-- Version 2 moves the service from node 2 to node 4. -/
def sampleEdited : SignedPolicy :=
  (samplePolicy 2 [sampleNode 4]).signed sampleRoot (some sampleSigned)

/-- The entry version 2 replaced. -/
def sampleEntry : SignedEntry := SignedEntry.sign sampleRoot 1 sampleName (sampleService [sampleNode 2])

theorem edits_sample : Edits sampleRoot [sampleEdited, sampleSigned] :=
  .edit (.first (Policy.signWith_eq_ok.mpr ⟨rfl, validate_samplePolicy, rfl⟩))
    (Policy.signWith_eq_ok.mpr ⟨rfl, by decide, rfl⟩) (show (1 : UInt64) < 2 by decide)

theorem entries_sampleSigned : sampleSigned.entries = [sampleEntry] := rfl

theorem sampleEntry_notMem : sampleEntry ∉ sampleEdited.entries := by
  intro h
  rw [sampleEdited, Policy.entries_signed] at h
  have hservice := (Policy.mem_signedEntries rfl h).1
  exact absurd hservice (by decide)

theorem signedIn_sampleEntry : SignedIn [sampleEdited, sampleSigned] sampleEntry :=
  ⟨sampleSigned, by simp, by simp [entries_sampleSigned]⟩

/-- The directory's word for version 1. -/
theorem vouchable_sampleSigned : Vouchable sampleSigned.head := by
  have hsign : ∃ f, Fresh.sign (3 : UInt8) sampleSigned.head 0 100 = .ok f := ⟨_, rfl⟩
  obtain ⟨f, hf⟩ := hsign
  exact @vouchable_of_sign _ _ _ _ _ 5 _ hf (by decide) (by decide) (by decide)

/-- The directory's word for version 2. -/
theorem vouchable_sampleEdited : Vouchable sampleEdited.head := by
  have hsign : ∃ f, Fresh.sign (3 : UInt8) sampleEdited.head 0 100 = .ok f := ⟨_, rfl⟩
  obtain ⟨f, hf⟩ := hsign
  exact @vouchable_of_sign _ _ _ _ _ 5 _ hf (by decide) (by decide) (by decide)

/-- Version 2 keeps the service where it is. -/
def sampleKept : SignedPolicy := (samplePolicy 2 [sampleNode 2]).signed sampleRoot (some sampleSigned)

theorem edits_sampleKept : Edits sampleRoot [sampleKept, sampleSigned] :=
  .edit (.first (Policy.signWith_eq_ok.mpr ⟨rfl, validate_samplePolicy, rfl⟩))
    (Policy.signWith_eq_ok.mpr ⟨rfl, by decide, rfl⟩) (show (1 : UInt64) < 2 by decide)

theorem keepsEntries_sampleKept : KeepsEntries [sampleKept, sampleSigned] sampleKept := by
  intro p hp e he _
  rcases List.mem_pair.mp hp with rfl | rfl
  · exact he
  · exact he

theorem view_current_sample : ViewsCurrent (nodeId sampleRoot) [sampleKept, sampleSigned] sampleKept :=
  (view_current (nodeId sampleRoot) [sampleKept, sampleSigned] edits_sampleKept.verify sampleKept
    (by simp)).mpr fun _ => keepsEntries_sampleKept

/-- The replaced entry, under the newer head, is accepted. -/
theorem not_view_current : Edits sampleRoot [sampleEdited, sampleSigned] ∧
    ¬ViewsCurrent (nodeId sampleRoot) [sampleEdited, sampleSigned] sampleEdited := by
  refine ⟨edits_sample, fun hcurrent => ?_⟩
  have hview : (⟨sampleEdited.head, [sampleEntry]⟩ : View).verify (nodeId sampleRoot) = .ok () :=
    verify_singleton edits_sample.verify (by simp) signedIn_sampleEntry
      (show (1 : UInt64) ≤ 2 by decide)
  obtain ⟨now, turns, h, hfetch, hv⟩ := exists_fetch hview vouchable_sampleEdited
  have := hcurrent [] none now turns now h hfetch (by rw [hv])
    (by simp [hv, signedIn_sampleEntry]) sampleEntry (by simp [hv])
  exact sampleEntry_notMem this

theorem assigns_sound_sample : AcksSound (nodeId sampleRoot) [sampleKept, sampleSigned] sampleKept 1
    sampleName (sampleNode 2) := by
  have hverify := edits_sampleKept.verify
  refine (assigns_sound (nodeId sampleRoot) [sampleKept, sampleSigned] hverify sampleKept (by simp) 1
    sampleName (sampleNode 2)).mpr fun _ p hp e he hle hlists => ?_
  exact (assigns_iff (hverify sampleKept (by simp))).mpr
    ⟨e, keepsEntries_sampleKept p hp e he hle, hlists⟩

/-- The host version 2 dropped shows its old entry under the newer head. -/
theorem not_assigns_sound : Edits sampleRoot [sampleEdited, sampleSigned] ∧
    ¬AcksSound (nodeId sampleRoot) [sampleEdited, sampleSigned] sampleEdited 1 sampleName
      (sampleNode 2) := by
  refine ⟨edits_sample, fun hsound => ?_⟩
  have hedited := edits_sample.verify sampleEdited (by simp)
  have hhead := (SignedPolicy.verify_eq_ok.mp hedited).1
  have hassigns := hsound ⟨2, some sampleEdited.head, some sampleEntry⟩ rfl
    (by simp [signedIn_sampleEntry]) (by decide) (HelloAck.assigns_eq_ok_true.mpr (.inr
      ⟨by decide, _, _, rfl, rfl, hhead, rfl, rfl,
        checkEntryVersion_eq_ok.mpr ⟨rfl, show (1 : UInt64) ≤ 2 by decide⟩,
        SignedEntry.verify_sign _ _ _ _, by decide⟩))
  obtain ⟨e, he, -, hhost⟩ := (assigns_iff hedited).mp hassigns
  rw [sampleEdited, Policy.entries_signed] at he
  have hservice := (Policy.mem_signedEntries rfl he).1
  have : e.service = sampleService [sampleNode 4] := (Prod.ext_iff.mp (List.mem_singleton.mp hservice)).2
  rw [this] at hhost
  exact absurd hhost (by decide)

end Sample

end Wires
