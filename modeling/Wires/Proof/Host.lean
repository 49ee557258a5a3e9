import Wires.Impl.Host
import Wires.Proof.Store

/-!
# Policies only get newer

On one host, `policy` never answers an older policy than it has answered
before, whatever is written to the file meanwhile: the high-water mark only
rises (`Host.highWater_le`), it is at least every version that passed it
(`Host.Marked`), and a call passes it only with a version no lower. Together
with `adopt_if_newer` (`Adopt.run_spec`), this is `policy_monotone`.
-/

namespace Wires

section

variable [Crypto] {root : NodeId}

namespace Task

/-- The policy of a task whose `policy` passed the high-water mark. -/
def passed : Task root → Option (Held root)
  | .publishes s | .holds s | .verified s _ _ _ | .decided s _ _ _ => some s
  | _ => none

/-- What `policy` answered a task. -/
def returned : Task root → Option (Held root)
  | .holds s | .verified s _ _ _ | .decided s _ _ _ => some s
  | _ => none

theorem passed_of_returned {t : Task root} {s : Held root} (h : t.returned = some s) :
    t.passed = some s := by
  cases t <;> simp_all [returned, passed]

end Task

namespace Host

variable {ι : Type} [DecidableEq ι] {path : String} {config : HostConfig} {me : NodeId}
  {issuerOf : IdToken → Except String Issuer} {h h' : Host root ι} {e : HostEvent ι}

theorem tasks_goes {i j : ι} {task : Task root} :
    (h.goes i task).tasks j = if j = i then task else h.tasks j :=
  Function.update_apply ..

/-- What a step does, by the stage the task is at. -/
inductive Moves (path : String) (config : HostConfig) (me : NodeId)
    (issuerOf : IdToken → Except String Issuer) (h : Host root ι) : HostEvent ι → Host root ι → Prop
  | rewrites (file) : Moves path config me issuerOf h (.rewrite file) { h with file }
  | calls {i} : h.tasks i = .idle → Moves path config me issuerOf h (.call i) (h.goes i .reads)
  | fails {i why} : h.tasks i = .reads →
    Moves path config me issuerOf h (.read i) (h.goes i (.failed why))
  | loads {i} {state : Held root} : h.tasks i = .reads →
    read path root h.file = .ok (some state) →
    Moves path config me issuerOf h (.read i) (h.goes i (.marks state))
  | refuses {i state why} : h.tasks i = .marks state → state.version < h.highWater →
    Moves path config me issuerOf h (.mark i) (h.goes i (.failed why))
  | passes {i state} : h.tasks i = .marks state → h.highWater ≤ state.version →
    Moves path config me issuerOf h (.mark i)
      { h.goes i (.publishes state) with highWater := state.version }
  | publishes {i state} : h.tasks i = .publishes state → Moves path config me issuerOf h (.publish i)
      { h.goes i (.holds state) with trust := config.trust state.policy }
  | verifies {i state caller token now keys} : h.tasks i = .holds state →
    Moves path config me issuerOf h (.verify i caller token now keys)
      (h.goes i (.verified state h.trust caller
        (admitCaller state caller token (verifyToken issuerOf keys h.trust caller token now))))
  | decides {i state against caller verified service now} :
    h.tasks i = .verified state against caller (.ok verified) →
    Moves path config me issuerOf h (.decide i service now) (h.goes i (.decided state against service
      (admitCall state config me caller verified service now)))

theorem moves_of_step (hs : h.step path config me issuerOf e = some h') :
    Moves path config me issuerOf h e h' := by
  cases e with
  | rewrite file =>
    cases hs
    exact .rewrites file
  | call i =>
    simp only [step] at hs
    split at hs
    · rename_i hi
      cases hs
      exact .calls hi
    · cases hs
  | read i =>
    simp only [step] at hs
    split at hs
    · rename_i hi
      cases hs
      unfold found
      split
      · exact .fails hi
      · exact .fails hi
      · rename_i hr
        exact .loads hi hr
    · cases hs
  | mark i =>
    simp only [step] at hs
    split at hs
    · rename_i state hi
      cases hs
      unfold weighed
      split
      · rename_i hlt
        rw [max_eq_left hlt.le]
        exact .refuses hi hlt
      · rename_i hge
        rw [max_eq_right (not_lt.mp hge)]
        exact .passes hi (not_lt.mp hge)
    · cases hs
  | publish i =>
    simp only [step] at hs
    split at hs
    · rename_i hi
      cases hs
      exact .publishes hi
    · cases hs
  | verify i caller token now keys =>
    simp only [step] at hs
    split at hs
    · rename_i hi
      cases hs
      exact .verifies hi
    · cases hs
  | decide i service now =>
    simp only [step] at hs
    split at hs
    · rename_i hi
      cases hs
      exact .decides hi
    · cases hs

/-! ## The high-water mark -/

theorem highWater_le_step (hm : Moves path config me issuerOf h e h') :
    h.highWater ≤ h'.highWater := by
  cases hm with
  | passes _ hle => exact hle
  | _ => exact le_rfl

/-- A policy that passes the mark is no older than it. -/
theorem passed_step (hm : Moves path config me issuerOf h e h') {i : ι} {s : Held root}
    (hs : (h'.tasks i).passed = some s) :
    (h.tasks i).passed = some s ∨ h.highWater ≤ s.version ∧ s.version ≤ h'.highWater := by
  cases hm with
  | rewrites => exact .inl hs
  | calls hi | fails hi | loads hi | refuses hi =>
    rw [tasks_goes] at hs
    split_ifs at hs with hij
    · cases hs
    · exact .inl hs
  | @passes j state hj hle =>
    replace hs : ((h.goes j (.publishes state)).tasks i).passed = some s := hs
    rw [tasks_goes] at hs
    split_ifs at hs with hij
    · cases hs
      exact .inr ⟨hle, le_rfl⟩
    · exact .inl hs
  | @publishes j state hj =>
    replace hs : ((h.goes j (.holds state)).tasks i).passed = some s := hs
    rw [tasks_goes] at hs
    split_ifs at hs with hij
    · subst hij
      rw [hj]
      exact .inl hs
    · exact .inl hs
  | verifies hj | decides hj =>
    rw [tasks_goes] at hs
    split_ifs at hs with hij
    · subst hij
      rw [hj]
      exact .inl hs
    · exact .inl hs

/-- What `policy` answered a task stays its answer. -/
theorem returned_step (hm : Moves path config me issuerOf h e h') {i : ι} {s : Held root}
    (hs : (h.tasks i).returned = some s) : (h'.tasks i).returned = some s := by
  cases hm with
  | rewrites => exact hs
  | calls hj | fails hj | loads hj | refuses hj =>
    rw [tasks_goes]
    split_ifs with hij
    · subst hij
      rw [hj] at hs
      cases hs
    · exact hs
  | @passes j state hj =>
    show ((h.goes j (.publishes state)).tasks i).returned = some s
    rw [tasks_goes]
    split_ifs with hij
    · subst hij
      rw [hj] at hs
      cases hs
    · exact hs
  | @publishes j state hj =>
    show ((h.goes j (.holds state)).tasks i).returned = some s
    rw [tasks_goes]
    split_ifs with hij
    · subst hij
      rw [hj] at hs
      cases hs
    · exact hs
  | verifies hj | decides hj =>
    rw [tasks_goes]
    split_ifs with hij
    · subst hij
      rw [hj] at hs
      exact hs
    · exact hs

/-- The mark is at least every version that passed it. -/
def Marked (h : Host root ι) : Prop :=
  ∀ i s, (h.tasks i).passed = some s → s.version ≤ h.highWater

theorem Marked.step (hk : Marked h) (hm : Moves path config me issuerOf h e h') : Marked h' := by
  intro i s hs
  obtain hold | ⟨-, hle⟩ := passed_step hm hs
  · exact (hk i s hold).trans (highWater_le_step hm)
  · exact hle

/-- The mark is at `w` or above, and so is what passes it for a task. -/
def Above (w : StateVersion) (j : ι) (h : Host root ι) : Prop :=
  w ≤ h.highWater ∧ ∀ t, (h.tasks j).passed = some t → w ≤ t.version

theorem Above.step {w : StateVersion} {j : ι} (ha : Above w j h)
    (hm : Moves path config me issuerOf h e h') : Above w j h' := by
  refine ⟨ha.1.trans (highWater_le_step hm), fun t ht => ?_⟩
  obtain hold | ⟨hle, -⟩ := passed_step hm ht
  · exact ha.2 t hold
  · exact ha.1.trans hle

theorem highWater_le {es : List (HostEvent ι)}
    (hr : run (step path config me issuerOf) h es = some h') : h.highWater ≤ h'.highWater :=
  run_le (P := fun _ => True) (f := fun h : Host root ι => h.highWater) (fun _ _ _ _ _ => trivial)
    (fun _ _ _ _ hs => highWater_le_step (moves_of_step hs)) trivial hr

/-- A call of `policy` that starts after another one answered answers no older policy. -/
theorem version_le_of_returned {file : PolicyFile} {trust : IdpTrust} {i j : ι}
    {es fs gs : List (HostEvent ι)} {s t : Held root}
    (hr : run (step path config me issuerOf) (start file trust)
      (es ++ .publish i :: (fs ++ .call j :: gs)) = some h)
    (hi : (h.tasks i).returned = some s) (hj : (h.tasks j).returned = some t) :
    s.version ≤ t.version := by
  obtain ⟨h₁, h₁run, hrest⟩ := run_append.mp hr
  obtain ⟨h₂, hpub, hrest⟩ := run_cons.mp hrest
  obtain ⟨h₃, hrun₃, hrest⟩ := run_append.mp hrest
  obtain ⟨h₄, hcall, hrest⟩ := run_cons.mp hrest
  have hmarked : Marked h₂ := by
    refine Marked.step (run_invariant (P := Marked) ?_ ?_ h₁run) (moves_of_step hpub)
    · exact fun _ _ _ hk hs => hk.step (moves_of_step hs)
    · exact nofun
  -- what task `i` holds right after its `policy` answered is what it holds at the end
  have hheld : ∃ s', (h₂.tasks i).returned = some s' := by
    have hm := moves_of_step hpub
    cases hm with
    | @publishes i state hi =>
      refine ⟨state, ?_⟩
      show ((h₁.goes i (.holds state)).tasks i).returned = some state
      rw [tasks_goes, if_pos rfl]
      rfl
  obtain ⟨s', hs'⟩ := hheld
  have hkeep : (h.tasks i).returned = some s' := by
    have hk : ∀ (h : Host root ι) (e) (h' : Host root ι), (h.tasks i).returned = some s' →
        h.step path config me issuerOf e = some h' → (h'.tasks i).returned = some s' :=
      fun _ _ _ hs hstep => returned_step (moves_of_step hstep) hs
    have h₃held := run_invariant (P := fun h => (h.tasks i).returned = some s') hk hs' hrun₃
    exact run_invariant (P := fun h => (h.tasks i).returned = some s') hk
      (hk _ _ _ h₃held hcall) hrest
  obtain rfl : s = s' := by
    rw [hi] at hkeep
    exact Option.some.inj hkeep
  have habove : Above s.version j h₄ := by
    have hle : s.version ≤ h₃.highWater :=
      (hmarked i s (Task.passed_of_returned hs')).trans (highWater_le hrun₃)
    have hm := moves_of_step hcall
    cases hm with
    | calls hidle =>
      refine ⟨hle, fun t ht => ?_⟩
      rw [tasks_goes, if_pos rfl] at ht
      cases ht
  exact (run_invariant (P := Above s.version j) (fun _ _ _ ha hs => ha.step (moves_of_step hs))
    habove hrest).2 t (Task.passed_of_returned hj)

end Host

/-- **Policies only get newer.** Whatever the order of the steps of any number of `adopt_if_newer`
calls on a file that is absent or verifies: the file verifies, its version never goes down, a call
answers `Ok(true)` exactly when it replaced the file, and when all have returned the file holds
the highest version offered. And whatever is written to a host's file: what `policy` answers
verifies, and is no older than what any call answered before it started. -/
theorem policy_monotone {ι : Type} [DecidableEq ι] (path : String) (root : NodeId) :
    (∀ (file : PolicyFile) (held : Option (Held root)) (es : List (AdoptEvent ι)) (σ : Adopt ι),
      read path root file = .ok held → run (Adopt.step path root) (.start file) es = some σ →
      (∃ now, read path root σ.file = .ok now) ∧
      (∀ es₁ es₂ τ, es = es₁ ++ es₂ → run (Adopt.step path root) (.start file) es₁ = some τ →
        storedVersion path root τ.file ≤ storedVersion path root σ.file) ∧
      (∀ i c r, σ.calls i = some c → c.stage = .returned r →
        (r = .ok true ↔ Adopt.Replaces path root file es i c.candidate)) ∧
      ((∀ i c, σ.calls i = some c → ∃ r, c.stage = .returned r) →
        IsGreatest (Adopt.offeredVersions path root file es) (storedVersion path root σ.file))) ∧
    ∀ (config : HostConfig) (me : NodeId) (issuerOf : IdToken → Except String Issuer)
      (file : PolicyFile) (trust : IdpTrust) (es : List (HostEvent ι)) (h : Host root ι),
      run (Host.step path config me issuerOf) (.start file trust) es = some h →
      (∀ i s, (h.tasks i).returned = some s → s.signed.verify root = .ok ()) ∧
      ∀ es₁ es₂ es₃ i j s t, es = es₁ ++ .publish i :: (es₂ ++ .call j :: es₃) →
        (h.tasks i).returned = some s → (h.tasks j).returned = some t → s.version ≤ t.version := by
  refine ⟨fun file held es σ hread hr => ⟨?_, ?_, ?_, ?_⟩, ?_⟩
  · exact (Adopt.good_of_run hread hr).2.stored
  · rintro es₁ es₂ τ rfl hτ
    obtain ⟨τ', hτ', hrest⟩ := run_append.mp hr
    obtain rfl : τ = τ' := Option.some.inj (hτ.symm.trans hτ')
    exact Adopt.storedVersion_le (Adopt.good_of_run hread hτ) hrest
  · intro i c r hi hstage
    have ha := ((Adopt.told_of_run hread hr).tells i).done c r hi (by rw [hstage]; rfl)
    rw [Adopt.replaces_iff hread hr hi]
    exact ha.wrote
  · exact Adopt.isGreatest_storedVersion hread hr
  · intro config me issuerOf file trust es h hr
    refine ⟨fun i s _ => s.verified, ?_⟩
    rintro es₁ es₂ es₃ i j s t rfl hi hj
    exact Host.version_le_of_returned hr hi hj

end

section Sample

attribute [local instance] Crypto.plain

/-- The sample policy, as it is offered. -/
def sampleCandidate : Candidate := ⟨sampleSigned, parsed_sampleSigned⟩

/-- The events of one call that adopts the sample policy. -/
def sampleAdoption : List (AdoptEvent Bool) :=
  [.call false sampleCandidate 5, .lock false, .read false, .write false, .unlock false]

theorem run_sampleAdoption : ∃ σ : Adopt Bool,
    run (Adopt.step "policy.json" (nodeId sampleRoot)) (.start .absent) sampleAdoption = some σ ∧
      ∀ i c, σ.calls i = some c → ∃ r, c.stage = .returned r := by
  have hc : checkOffered (nodeId sampleRoot) sampleCandidate.policy 5 = .ok () :=
    checkOffered_eq_ok.mpr ⟨verify_sampleSigned, by decide⟩
  simp only [sampleAdoption, run, Adopt.step, Adopt.start, Adopt.goes, Adopt.found, read, hc,
    newline_notMem_jsonText, Function.update_self, Option.bind_some, if_false,
    Option.some.injEq, exists_eq_left']
  intro i c hi
  cases i with
  | false => exact ⟨_, (congrArg Call.stage (Option.some.inj hi)).symm⟩
  | true => cases hi

/-- The events of two calls of `policy`, one after the other. -/
def sampleDecisions : List (HostEvent Bool) :=
  [.call false, .read false, .mark false, .publish false, .call true, .read true, .mark true,
    .publish true]

theorem run_sampleDecisions {file : List Char} {held : Held (nodeId sampleRoot)}
    (hread : read "policy.json" (nodeId sampleRoot) (.text file) = .ok (some held)) :
    ∃ h : Host (nodeId sampleRoot) Bool,
      run (Host.step "policy.json" ⟨none, ∅⟩ (sampleNode 2) .ok) (.start (.text file) ⟨[]⟩)
        sampleDecisions = some h ∧
      (h.tasks false).returned = some held ∧ (h.tasks true).returned = some held := by
  have h0 : ¬held.version < 0 := not_lt.mpr UInt64.zero_le
  have h1 : ¬held.version < max 0 held.version := not_lt.mpr (max_le (not_lt.mp h0) le_rfl)
  simp only [sampleDecisions, run, Host.step, Host.start, Host.goes, Host.found, Host.weighed,
    hread, h0, h1, if_false, Function.update_self, Option.bind_some, Function.update_of_ne, ne_eq,
    reduceCtorEq, not_false_eq_true, Option.some.injEq]
  exact ⟨_, rfl, rfl, rfl⟩

theorem policy_monotone_sample :
    (∃ σ : Adopt Bool, IsGreatest
      (Adopt.offeredVersions "policy.json" (nodeId sampleRoot) .absent sampleAdoption)
      (storedVersion "policy.json" (nodeId sampleRoot) σ.file)) ∧
    ∃ (h : Host (nodeId sampleRoot) Bool) (s t : Held (nodeId sampleRoot)),
      (h.tasks false).returned = some s ∧ (h.tasks true).returned = some t ∧
      s.version ≤ t.version := by
  obtain ⟨hadopt, hdecide⟩ := @policy_monotone _ Bool _ "policy.json" (nodeId sampleRoot)
  obtain ⟨σ, hσ, hdone⟩ := run_sampleAdoption
  obtain ⟨-, -, -, hmax⟩ := hadopt .absent none sampleAdoption σ rfl hσ
  obtain ⟨s, hread, -⟩ := read_policyText "policy.json" (c := sampleCandidate) verify_sampleSigned
  obtain ⟨h, hh, hs, ht⟩ := run_sampleDecisions hread
  refine ⟨⟨σ, hmax hdone⟩, h, s, s, hs, ht, ?_⟩
  exact (hdecide _ _ _ _ _ _ h hh).2 [.call false, .read false, .mark false] []
    [.read true, .mark true, .publish true] false true s s rfl hs ht

end Sample

end Wires
