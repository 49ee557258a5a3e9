import Wires.Impl.Session

/-!
# What the caller's check shows

One lemma a function of `wires/caller/vouch.rs`: what a caller that may speak at
once holds (`ready_iff`), what a check that passes before speaking has shown of
the view it ends with (`checkBefore_eq_ok`), and what one after speaking at once
leaves as it was (`checkAfter_eq_ok`). `Cleared` is what both paths come to: the
view lists the host, and a word vouches for the view's head, or for a head of
the same hash.
-/

namespace Wires

variable [Crypto] {root : NodeId}

/-- The view's entries say the host serves what is wanted. -/
def Scope.Lists (scope : Scope) (view : View) (host : NodeId) : Prop :=
  match scope with
  | .service name => ∃ e, view.entry name = some e ∧ host ∈ e.service.hosts
  | .anyService => ∃ e ∈ view.entries, host ∈ e.service.hosts

/-- The word's signer may speak for the host: it is not the host, or no other directory is known. -/
def MaySpeakFor (f : Fresh) (known : List NodeId) (host : NodeId) : Prop :=
  f.directory = host → ∀ d ∈ known, d = host

namespace Vouching

variable {v v' : Vouching root} {host : NodeId} {proof : HostProof} {now : Int64}
  {refreshed : Refreshed root}

theorem serves_iff : v.serves host = true ↔ v.scope.Lists v.held.view host := by
  unfold serves Scope.Lists HeldView.entry
  cases v.scope with
  | service name => simp [Option.any_eq_true]
  | anyService => simp

theorem takes_iff {f : Fresh} : v.takes host f = true ↔ MaySpeakFor f v.known host := by
  simp [takes, MaySpeakFor, imp_iff_not_or]

/-- The cached path: the view lists the host, and a word held vouches for its head. -/
theorem ready_iff : v.ready host now = true ↔ v.scope.Lists v.held.view host ∧
    ∃ f, v.held.fresh.vouching v.held.view.head host now = some f ∧
      MaySpeakFor f v.known host := by
  simp [ready, serves_iff, takes_iff, Option.any_eq_true]

/-! ## Learning a word -/

@[simp] theorem learnFrom_scope (v : Vouching root) (host : NodeId) (proof : HostProof)
    (now : Int64) : (v.learnFrom host proof now).scope = v.scope := by
  unfold learnFrom
  split <;> rfl

@[simp] theorem learnFrom_known (v : Vouching root) (host : NodeId) (proof : HostProof)
    (now : Int64) : (v.learnFrom host proof now).known = v.known := by
  unfold learnFrom
  split <;> rfl

@[simp] theorem learnFrom_view (v : Vouching root) (host : NodeId) (proof : HostProof)
    (now : Int64) : (v.learnFrom host proof now).held.view = v.held.view := by
  unfold learnFrom
  split <;> rfl

/-! ## The checks -/

@[simp] theorem keeping_ok {α : Type} (a : α) : v.keeping (.ok a) = .ok a := rfl

@[simp] theorem keeping_eq_ok {α : Type} {part : Except Stop α} {a : α} :
    v.keeping part = .ok a ↔ part = .ok a := by
  cases part <;> simp [keeping, mapErr]

@[simp] theorem keeping_eq_error {α : Type} {part : Except Stop α} {stop : Stop} :
    v.keeping part = .error (v', stop) ↔ part = .error stop ∧ v' = v := by
  cases part <;> simp [keeping, mapErr, eq_comm, and_comm]

/-- Two callers want the same and know the same directories. -/
def Alike (v v' : Vouching root) : Prop := v'.scope = v.scope ∧ v'.known = v.known

theorem refreshTo_eq_ok {wanted : StateVersion} (h : v.refreshTo wanted refreshed = .ok v') :
    v.Alike v' := by
  unfold refreshTo at h
  split at h
  · simp only [bind_eq_ok, pure_eq_ok] at h
    obtain ⟨held, -, rfl⟩ := h
    exact ⟨rfl, rfl⟩
  · cases h

theorem catchUp_eq_ok {newer : StateVersion}
    (h : v.catchUp host proof now newer refreshed = .ok v') :
    v.Alike v' ∧ proof.check root v'.held.view.head host now = .ok .same := by
  unfold catchUp at h
  split at h
  · cases h
  · rename_i w hw
    simp only [keeping_eq_ok, bind_eq_ok, ensure_eq_ok, mapErr_eq_ok, exists_const] at h
    obtain ⟨-, standing, hcheck, h⟩ := h
    have halike := refreshTo_eq_ok hw
    split at h
    · obtain rfl := pure_eq_ok.mp h
      exact ⟨halike, hcheck⟩
    · cases h

theorem catchUp_eq_error {newer : StateVersion} {stop : Stop}
    (h : v.catchUp host proof now newer refreshed = .error (v', stop)) : v.Alike v' := by
  unfold catchUp at h
  split at h
  · cases h
    exact ⟨rfl, rfl⟩
  · rename_i w hw
    obtain rfl := (keeping_eq_error.mp h).2
    exact refreshTo_eq_ok hw

theorem mayTell_eq_ok {u : Unit} (h : v.mayTell host proof now = .ok u) {f : Fresh}
    (hf : proof.vouching host now = .ok f) :
    MaySpeakFor f v.known host ∧ v.scope.Lists v.held.view host := by
  have hsome : (proof.vouching host now).toOption = some f := by rw [hf]; rfl
  simp only [mayTell, bind_eq_ok, ensure_eq_ok, exists_const, hsome, Option.all_some, takes_iff,
    serves_iff] at h
  exact h

/-- A check that passes before speaking: the host holds the head of the view the caller now has, a
word it shows vouches for that head, and the view lists the host. -/
theorem checkBefore_eq_ok (h : v.checkBefore host proof now refreshed = .ok v') :
    v.Alike v' ∧ proof.check root v'.held.view.head host now = .ok .same ∧
      v.scope.Lists v'.held.view host ∧
      ∃ f, proof.vouching host now = .ok f ∧ MaySpeakFor f v.known host := by
  have hsame : ∃ w : Vouching root, v.Alike w ∧
      proof.check root w.held.view.head host now = .ok .same ∧
      w.mayTell host proof now = .ok () ∧ v' = w.learnFrom host proof now := by
    simp only [checkBefore, bind_eq_ok, keeping_eq_ok, mapErr_eq_ok] at h
    obtain ⟨standing, hcheck, h⟩ := h
    cases standing with
    | same =>
      simp only [bind_eq_ok, pure_eq_ok, exists_eq_left', exists_and_right, exists_ok_unit] at h
      exact ⟨v, ⟨rfl, rfl⟩, hcheck, keeping_eq_ok.mp h.1, h.2.symm⟩
    | newer newer =>
      simp only [bind_eq_ok, pure_eq_ok, exists_and_right, exists_ok_unit] at h
      obtain ⟨w, hw, htell, hv⟩ := h
      obtain ⟨halike, hcheck⟩ := catchUp_eq_ok hw
      exact ⟨w, halike, hcheck, keeping_eq_ok.mp htell, hv.symm⟩
  obtain ⟨w, ⟨hscope, hknown⟩, hcheck, htell, rfl⟩ := hsame
  obtain ⟨-, -, -, -, ⟨f, hf⟩, -⟩ := HostProof.check_eq_ok hcheck
  obtain ⟨hspeak, hlists⟩ := mayTell_eq_ok htell hf
  rw [hknown] at hspeak
  rw [hscope] at hlists
  refine ⟨⟨?_, ?_⟩, ?_, ?_, f, hf, hspeak⟩
  · rw [learnFrom_scope, hscope]
  · rw [learnFrom_known, hknown]
  · rw [learnFrom_view]
    exact hcheck
  · rw [learnFrom_view]
    exact hlists

/-- A check that fails before speaking leaves a caller that wants the same, whatever view it has by
then. -/
theorem checkBefore_eq_error {stop : Stop}
    (h : v.checkBefore host proof now refreshed = .error (v', stop)) : v.Alike v' := by
  have htell : ∀ {w : Vouching root}, v.Alike w → ((w.keeping (w.mayTell host proof now)) >>= fun _ =>
      pure (w.learnFrom host proof now)) = .error (v', stop) → v.Alike v' := by
    intro w hw h
    rcases bind_eq_error.mp h with h | ⟨_, -, h⟩
    · obtain rfl := (keeping_eq_error.mp h).2
      exact hw
    · cases h
  unfold checkBefore at h
  rcases bind_eq_error.mp h with h | ⟨standing, -, h⟩
  · obtain rfl := (keeping_eq_error.mp h).2
    exact ⟨rfl, rfl⟩
  cases standing with
  | same => exact htell ⟨rfl, rfl⟩ h
  | newer newer =>
    rcases bind_eq_error.mp h with h | ⟨w, hw, h⟩
    · exact catchUp_eq_error h
    · exact htell (catchUp_eq_ok hw).1 h

/-- A check that passes after speaking at once leaves the view as it was; a newer head it was shown
is one the root signed. -/
theorem checkAfter_eq_ok (h : v.checkAfter host proof now = .ok v') :
    v.Alike v' ∧ v'.held.view = v.held.view ∧
      (v.version < proof.head.head.version → proof.head.verify root = .ok ()) := by
  unfold checkAfter at h
  split at h
  · simp only [bind_eq_ok, mapErr_eq_ok, pure_eq_ok, exists_and_right, exists_ok_unit] at h
    obtain ⟨hverify, rfl⟩ := h
    exact ⟨⟨rfl, rfl⟩, rfl, fun _ => hverify⟩
  · rename_i hnot
    simp only [bind_eq_ok, mapErr_eq_ok] at h
    obtain ⟨standing, -, h⟩ := h
    split at h
    · obtain rfl := pure_eq_ok.mp h
      exact ⟨⟨rfl, rfl⟩, rfl, fun hlt => absurd hlt hnot⟩
    · obtain rfl := pure_eq_ok.mp h
      exact ⟨⟨learnFrom_scope .., learnFrom_known ..⟩, learnFrom_view .., fun hlt => absurd hlt hnot⟩

theorem check_after : v.check host proof now false refreshed = v.keeping (v.checkAfter host proof now) :=
  rfl

theorem check_eq_error {beforeSpeaking : Bool} {stop : Stop}
    (h : v.check host proof now beforeSpeaking refreshed = .error (v', stop)) : v.Alike v' := by
  unfold check at h
  split at h
  · exact checkBefore_eq_error h
  · obtain rfl := (keeping_eq_error.mp h).2
    exact ⟨rfl, rfl⟩

end Vouching

/-! ## What clears a host -/

/-- A word for `head` at `now`, by a directory that may speak for the host. -/
def VouchedBy (words : List Fresh) (head : SignedPolicyHead) (host : NodeId) (now : Int64)
    (known : List NodeId) : Prop :=
  ∃ f ∈ words, f.vouches head host now = .ok () ∧ MaySpeakFor f known host

/-- What the caller's check came to: its view lists the host, and a word vouches for the view's
head, or, of those the host showed, for a head of the same version and hash. -/
def Grounds.Cleared (g : Grounds root) (scope : Scope) (known : List NodeId) (host : NodeId) : Prop :=
  scope.Lists g.held.view host ∧
    match g.shown with
    | none => VouchedBy g.held.fresh.iter g.held.view.head host g.now known
    | some proof => proof.head.verify root = .ok () ∧
        proof.head.head.version = g.held.version ∧ proof.head.hash = g.held.view.head.hash ∧
        VouchedBy proof.fresh proof.head host g.now known

theorem cleared_of_ready {v : Vouching root} {host : NodeId} {now : Int64}
    (h : v.ready host now = true) (before : HeldView root) :
    (⟨before, now, v.held, none⟩ : Grounds root).Cleared v.scope v.known host := by
  obtain ⟨hlists, f, hf, hspeak⟩ := Vouching.ready_iff.mp h
  have hmem : f ∈ v.held.fresh.iter := List.mem_of_find?_eq_some hf
  exact ⟨hlists, f, hmem, FreshSet.vouching_eq_some hf, hspeak⟩

theorem cleared_of_check {v v' : Vouching root} {host : NodeId} {proof : HostProof} {now : Int64}
    {refreshed : Refreshed root} (h : v.checkBefore host proof now refreshed = .ok v')
    (before : HeldView root) :
    (⟨before, now, v'.held, some proof⟩ : Grounds root).Cleared v.scope v.known host := by
  obtain ⟨-, hcheck, hlists, f, hf, hspeak⟩ := Vouching.checkBefore_eq_ok h
  obtain ⟨hverify, -, hle, hhash, -, hstanding⟩ := HostProof.check_eq_ok hcheck
  have hversion : proof.head.head.version = v'.held.version := by
    split at hstanding
    · cases hstanding
    · rename_i hnot
      exact le_antisymm (not_lt.mp hnot) hle
  obtain ⟨hmem, hvouches⟩ := HostProof.vouching_eq_ok hf
  exact ⟨hlists, hverify, hversion, hhash hversion, f, hmem, hvouches, hspeak⟩

end Wires
