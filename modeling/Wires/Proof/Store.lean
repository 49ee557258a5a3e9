import Wires.Impl.Store
import Wires.Proof.Signing
import Mathlib.Order.Bounds.Basic
import Mathlib.Order.WithBot

/-!
# The stored policy only gets newer

Any number of `adopt_if_newer` calls run on one file, a step at a time. What a
step does is said once (`Adopt.Moves`); from it, the lock is held by the call
that reads and writes (`Adopt.Locked`), the file always verifies, and a call
that is about to write still holds a newer candidate (`Adopt.Sound`). So the
stored version never goes down (`Adopt.storedVersion_le`), and what the calls
answer is what happened (`Adopt.Told`).
-/

namespace Wires

/-! ## Held policies and the file -/

/-- A policy is written as one line. -/
theorem newline_notMem_jsonText (s : SignedPolicy) : '\n' ∉ jsonText s :=
  Json.newline_notMem_compact _

section

variable [Crypto] {path : String} {root : NodeId}

/-- Only a policy that verifies is held, and every one that does can be. -/
theorem Held.exists_verify {signed : SignedPolicy} :
    (∃ h, Held.verify signed root = .ok h) ↔ signed.verify root = .ok () := by
  constructor
  · rintro ⟨h, hh⟩
    rw [← Held.verify_eq_ok.mp hh]
    exact h.verified
  · intro hv
    obtain ⟨-, p, hp, -⟩ := SignedPolicy.verify_eq_ok.mp hv
    exact ⟨⟨signed, p, hv, hp⟩, Held.verify_eq_ok.mpr rfl⟩

/-- A held policy is of the root's network. -/
theorem fabric_of_verify {s : SignedPolicy} (h : s.verify root = .ok ()) :
    s.head.head.fabric = root := by
  obtain ⟨hh, -⟩ := SignedPolicy.verify_eq_ok.mp h
  exact (SignedPolicyHead.verify_eq_ok.mp hh).2.2.1

/-- Of two policies of one network, the newer is the one of the higher version. -/
theorem isNewerThan_iff {s t : SignedPolicy} (hs : s.verify root = .ok ())
    (ht : t.verify root = .ok ()) : s.isNewerThan t = true ↔ t.version < s.version := by
  rw [SignedPolicy.isNewerThan, SignedPolicyHead.isNewerThan_iff, fabric_of_verify hs,
    fabric_of_verify ht]
  simp [SignedPolicy.version]

theorem checkOffered_eq_ok {s : SignedPolicy} {now : Int64} {u : Unit} :
    checkOffered root s now = .ok u ↔ s.verify root = .ok () ∧ now ≤ s.head.head.notAfter := by
  simp [checkOffered, SignedPolicyHead.checkFresh_eq_ok]

/-- What is written is read back. -/
theorem read_policyText (path : String) {c : Candidate} (h : c.policy.verify root = .ok ()) :
    ∃ held, read path root (.text (policyText c.policy)) = .ok (some held) ∧
      held.signed = c.policy := by
  obtain ⟨cs, hcs⟩ : ∃ cs, jsonText c.policy = '{' :: (cs ++ ['}']) := Json.compact_obj_eq _
  obtain ⟨held, hheld⟩ := Held.exists_verify.mpr h
  have htrim : trim (policyText c.policy) = jsonText c.policy := by
    rw [policyText, hcs]
    exact trim_line (by decide) (by decide)
  have htext := (reads_signedPolicy c.parsed).text
  refine ⟨held, ?_, Held.verify_eq_ok.mp hheld⟩
  rw [read, htrim, htext]
  simp [hheld]

/-- The version of what was read, below every version when there is none. -/
def heldVersion : Option (Held root) → WithBot StateVersion
  | none => ⊥
  | some held => held.version

/-- The version of the policy in the file. -/
def storedVersion (path : String) (root : NodeId) (file : PolicyFile) : WithBot StateVersion :=
  match read path root file with
  | .ok held => heldVersion held
  | .error _ => ⊥

theorem storedVersion_of_read {file : PolicyFile} {held : Option (Held root)}
    (h : read path root file = .ok held) : storedVersion path root file = heldVersion held := by
  rw [storedVersion, h]

theorem storedVersion_policyText (path : String) {c : Candidate} (h : c.policy.verify root = .ok ()) :
    storedVersion path root (.text (policyText c.policy)) = c.policy.version := by
  obtain ⟨held, hread, hs⟩ := read_policyText path h
  rw [storedVersion_of_read hread, heldVersion, Held.version, hs]

end

/-! ## Steps -/

namespace Stage

/-- The stages with the lock held. -/
def holds : Stage → Bool
  | .reads | .writes | .unlocks _ => true
  | _ => false

/-- The stages before the call has its answer. -/
def pending : Stage → Bool
  | .waits | .reads | .writes => true
  | _ => false

/-- The answer, when the call has it. -/
def result : Stage → Option (Except Anyhow Bool)
  | .unlocks r | .returned r => some r
  | _ => none

end Stage

namespace Adopt

variable {ι : Type} [DecidableEq ι]

theorem calls_goes {σ : Adopt ι} {i j : ι} {c : Call} {stage : Stage} :
    (σ.goes i c stage).calls j = if j = i then some { c with stage } else σ.calls j :=
  Function.update_apply ..

@[simp] theorem file_goes {σ : Adopt ι} {i : ι} {c : Call} {stage : Stage} :
    (σ.goes i c stage).file = σ.file := rfl

@[simp] theorem lock_goes {σ : Adopt ι} {i : ι} {c : Call} {stage : Stage} :
    (σ.goes i c stage).lock = σ.lock := rfl

/-- A call past the lock and not yet past the unlock has the lock. -/
def Locked (σ : Adopt ι) : Prop :=
  ∀ i c, σ.calls i = some c → c.stage.holds = true → σ.lock = some i

theorem Locked.goes {σ : Adopt ι} {i : ι} {c : Call} {stage : Stage} (h : Locked σ)
    (hi : stage.holds = true → σ.lock = some i) : Locked (σ.goes i c stage) := by
  intro j d hj hd
  rw [calls_goes] at hj
  split_ifs at hj with hji
  · subst hji
    cases hj
    exact hi hd
  · exact h j d hj hd

omit [DecidableEq ι] in
/-- Two calls do not both hold the lock. -/
theorem Locked.unique {σ : Adopt ι} (h : Locked σ) {i j : ι} {c d : Call} (hi : σ.calls i = some c)
    (hc : c.stage.holds = true) (hj : σ.calls j = some d) (hd : d.stage.holds = true) : i = j :=
  Option.some.inj ((h i c hi hc).symm.trans (h j d hj hd))

section

variable [Crypto]

/-- What a step does, by the stage the call is at. -/
inductive Moves (path : String) (root : NodeId) (σ : Adopt ι) : AdoptEvent ι → Adopt ι → Prop
  | offered {i c now} : σ.calls i = none → checkOffered root c.policy now = .ok () →
    Moves path root σ (.call i c now) (σ.goes i ⟨c, now, .waits⟩ .waits)
  | refused {i c now e} : σ.calls i = none → checkOffered root c.policy now = .error e →
    Moves path root σ (.call i c now) (σ.goes i ⟨c, now, .waits⟩ (.returned (.error e)))
  | locks {i c} : σ.calls i = some c → c.stage = .waits → σ.lock = none →
    Moves path root σ (.lock i) { σ.goes i c .reads with lock := some i }
  | unread {i c e} : σ.calls i = some c → c.stage = .reads →
    read path root σ.file = .error e → Moves path root σ (.read i) (σ.goes i c (.unlocks (.error e)))
  | first {i c} : σ.calls i = some c → c.stage = .reads → read path root σ.file = .ok none →
    Moves path root σ (.read i) (σ.goes i c .writes)
  | newer {i c stored} : σ.calls i = some c → c.stage = .reads →
    read path root σ.file = .ok (some stored) → c.candidate.policy.isNewerThan stored.signed = true →
    Moves path root σ (.read i) (σ.goes i c .writes)
  | older {i c stored} : σ.calls i = some c → c.stage = .reads →
    read path root σ.file = .ok (some stored) →
    ¬c.candidate.policy.isNewerThan stored.signed = true →
    Moves path root σ (.read i) (σ.goes i c (.unlocks (.ok false)))
  | writes {i c} : σ.calls i = some c → c.stage = .writes → Moves path root σ (.write i)
      { σ.goes i c (.unlocks (.ok true)) with file := .text (policyText c.candidate.policy) }
  | unlocks {i c r} : σ.calls i = some c → c.stage = .unlocks r →
    Moves path root σ (.unlock i) { σ.goes i c (.returned r) with lock := none }
  | failsWaiting {i c why} : σ.calls i = some c → c.stage = .waits →
    Moves path root σ (.fails i why) (σ.goes i c (.returned (.error why)))
  | failsLocked {i c why} : σ.calls i = some c → c.stage = .reads ∨ c.stage = .writes →
    Moves path root σ (.fails i why) (σ.goes i c (.unlocks (.error why)))

variable {path : String} {root : NodeId} {σ τ : Adopt ι} {e : AdoptEvent ι}

theorem moves_of_step (h : σ.step path root e = some τ) : Moves path root σ e τ := by
  cases e with
  | call i c now =>
    simp only [step] at h
    split at h
    · cases h
    · rename_i hi
      cases h
      cases hc : checkOffered root c.policy now with
      | ok u => exact .offered hi hc
      | error e => exact .refused hi hc
  | lock i =>
    simp only [step] at h
    split at h
    · rename_i hi hl
      cases h
      exact .locks hi rfl hl
    · cases h
  | read i =>
    simp only [step] at h
    split at h
    · rename_i hi
      cases h
      unfold found
      split
      · rename_i hr
        exact .unread hi rfl hr
      · rename_i hr
        exact .first hi rfl hr
      · rename_i hr
        split
        · rename_i hn
          exact .newer hi rfl hr hn
        · rename_i hn
          exact .older hi rfl hr hn
    · cases h
  | write i =>
    simp only [step] at h
    split at h
    · rename_i hi
      rw [if_neg (newline_notMem_jsonText _)] at h
      cases h
      exact .writes hi rfl
    · cases h
  | unlock i =>
    simp only [step] at h
    split at h
    · rename_i hi
      cases h
      exact .unlocks hi rfl
    · cases h
  | fails i why =>
    simp only [step] at h
    split at h
    · rename_i hi
      cases h
      exact .failsWaiting hi rfl
    · rename_i hi
      cases h
      exact .failsLocked hi (.inl rfl)
    · rename_i hi
      cases h
      exact .failsLocked hi (.inr rfl)
    · cases h

/-! ## The lock -/

theorem Locked.step (h : Locked σ) (hm : Moves path root σ e τ) : Locked τ := by
  cases hm with
  | offered => exact h.goes nofun
  | refused => exact h.goes nofun
  | locks hi hs hl =>
    intro j d hj hd
    replace hj : (σ.goes _ _ .reads).calls j = some d := hj
    rw [calls_goes] at hj
    split_ifs at hj with hji
    · rw [hji]
    · exact absurd (h j d hj hd) (by simp [hl])
  | unread hi hs => exact h.goes fun _ => h _ _ hi (by simp [hs, Stage.holds])
  | first hi hs => exact h.goes fun _ => h _ _ hi (by simp [hs, Stage.holds])
  | newer hi hs => exact h.goes fun _ => h _ _ hi (by simp [hs, Stage.holds])
  | older hi hs => exact h.goes fun _ => h _ _ hi (by simp [hs, Stage.holds])
  | writes hi hs => exact h.goes fun _ => h _ _ hi (by simp [hs, Stage.holds])
  | @unlocks i c r hi hs =>
    intro j d hj hd
    replace hj : (σ.goes i c (.returned r)).calls j = some d := hj
    rw [calls_goes] at hj
    split_ifs at hj with hji
    · cases hj
      cases hd
    · exact absurd (h.unique hj hd hi (by simp [hs, Stage.holds])) hji
  | failsWaiting => exact h.goes nofun
  | failsLocked hi hs =>
    exact h.goes fun _ => h _ _ hi (by rcases hs with hs | hs <;> simp [hs, Stage.holds])

/-! ## The file -/

/-- The file verifies, whoever is not refused was checked, and whoever is about to write has a
newer candidate than the file's. -/
structure Sound (path : String) (root : NodeId) (σ : Adopt ι) : Prop where
  stored : ∃ held, read path root σ.file = .ok held
  checked : ∀ i c, σ.calls i = some c → c.stage.pending = true →
    checkOffered root c.candidate.policy c.now = .ok ()
  newer : ∀ i c, σ.calls i = some c → c.stage = .writes →
    storedVersion path root σ.file < c.candidate.policy.version

/-- A call comes to a stage, with the file as it was. -/
theorem Sound.goes (h : Sound path root σ) {i : ι} {c : Call} {stage : Stage}
    (hcalls : τ.calls = (σ.goes i c stage).calls) (hfile : τ.file = σ.file)
    (hc : stage.pending = true → checkOffered root c.candidate.policy c.now = .ok ())
    (hn : stage = .writes → storedVersion path root σ.file < c.candidate.policy.version) :
    Sound path root τ where
  stored := hfile ▸ h.stored
  checked := fun j d hj hp => by
    rw [hcalls, calls_goes] at hj
    split_ifs at hj
    · cases hj
      exact hc hp
    · exact h.checked j d hj hp
  newer := fun j d hj hs => by
    rw [hfile]
    rw [hcalls, calls_goes] at hj
    split_ifs at hj
    · cases hj
      exact hn hs
    · exact h.newer j d hj hs

/-- The one about to write writes a policy that verifies, and nobody else is about to write. -/
theorem Sound.writes (h : Sound path root σ) (hl : Locked σ) {i : ι} {c : Call}
    (hi : σ.calls i = some c) (hs : c.stage = .writes) :
    Sound path root
      { σ.goes i c (.unlocks (.ok true)) with file := .text (policyText c.candidate.policy) } where
  stored := by
    have hc := h.checked i c hi (by simp [hs, Stage.pending])
    obtain ⟨held, hread, -⟩ := read_policyText path (checkOffered_eq_ok.mp hc).1
    exact ⟨_, hread⟩
  checked := fun j d hj hp => by
    replace hj : (σ.goes i c _).calls j = some d := hj
    rw [calls_goes] at hj
    split_ifs at hj
    · cases hj
      cases hp
    · exact h.checked j d hj hp
  newer := fun j d hj hd => by
    replace hj : (σ.goes i c _).calls j = some d := hj
    rw [calls_goes] at hj
    split_ifs at hj with hji
    · cases hj
      cases hd
    · exact absurd (hl.unique hj (by simp [hd, Stage.holds]) hi (by simp [hs, Stage.holds])) hji

theorem Sound.step (h : Sound path root σ) (hl : Locked σ) (hm : Moves path root σ e τ) :
    Sound path root τ := by
  cases hm with
  | offered hi hc => exact h.goes rfl rfl (fun _ => hc) nofun
  | refused => exact h.goes rfl rfl nofun nofun
  | locks hi hs =>
    exact h.goes rfl rfl (fun _ => h.checked _ _ hi (by simp [hs, Stage.pending])) nofun
  | unread => exact h.goes rfl rfl nofun nofun
  | first hi hs hr =>
    refine h.goes rfl rfl (fun _ => h.checked _ _ hi (by simp [hs, Stage.pending])) fun _ => ?_
    rw [storedVersion_of_read hr]
    exact WithBot.bot_lt_coe _
  | newer hi hs hr hn =>
    have hc := h.checked _ _ hi (by simp [hs, Stage.pending])
    refine h.goes rfl rfl (fun _ => hc) fun _ => ?_
    rw [storedVersion_of_read hr]
    exact WithBot.coe_lt_coe.mpr
      ((isNewerThan_iff (checkOffered_eq_ok.mp hc).1 (Held.verified _)).mp hn)
  | older => exact h.goes rfl rfl nofun nofun
  | writes hi hs => exact h.writes hl hi hs
  | unlocks => exact h.goes rfl rfl nofun nofun
  | failsWaiting => exact h.goes rfl rfl nofun nofun
  | failsLocked => exact h.goes rfl rfl nofun nofun

/-- Only a write changes the file, and it puts a newer policy there. -/
theorem storedVersion_step (h : Sound path root σ) (hm : Moves path root σ e τ) :
    (τ.file = σ.file ∧ ∀ i, e ≠ .write i) ∨ ∃ i c, e = .write i ∧ σ.calls i = some c ∧
      checkOffered root c.candidate.policy c.now = .ok () ∧
      τ.file = .text (policyText c.candidate.policy) ∧
      storedVersion path root τ.file = c.candidate.policy.version ∧
      storedVersion path root σ.file < storedVersion path root τ.file := by
  cases hm with
  | @writes i c hi hs =>
    have hc := h.checked i c hi (by simp [hs, Stage.pending])
    have hv := storedVersion_policyText path (checkOffered_eq_ok.mp hc).1
    refine .inr ⟨i, c, rfl, hi, hc, rfl, hv, ?_⟩
    show _ < storedVersion path root (.text _)
    rw [hv]
    exact h.newer i c hi hs
  | _ => exact .inl ⟨rfl, nofun⟩

/-- What every state of a run keeps. -/
theorem good_step (h : Locked σ ∧ Sound path root σ) (hs : σ.step path root e = some τ) :
    Locked τ ∧ Sound path root τ :=
  ⟨h.1.step (moves_of_step hs), h.2.step h.1 (moves_of_step hs)⟩

omit [DecidableEq ι] in
theorem good_start {file : PolicyFile} {held : Option (Held root)}
    (h : read path root file = .ok held) :
    Locked (start file : Adopt ι) ∧ Sound path root (start file : Adopt ι) :=
  ⟨nofun, ⟨held, h⟩, nofun, nofun⟩

theorem storedVersion_le_step (h : Locked σ ∧ Sound path root σ)
    (hs : σ.step path root e = some τ) :
    storedVersion path root σ.file ≤ storedVersion path root τ.file := by
  obtain ⟨hf, -⟩ | ⟨i, c, -, -, -, -, -, hlt⟩ := storedVersion_step h.2 (moves_of_step hs)
  · rw [hf]
  · exact hlt.le

/-- The stored version never goes down. -/
theorem storedVersion_le (h : Locked σ ∧ Sound path root σ) {es : List (AdoptEvent ι)}
    (hr : run (step path root) σ es = some τ) :
    storedVersion path root σ.file ≤ storedVersion path root τ.file :=
  run_le (P := fun σ => Locked σ ∧ Sound path root σ)
    (f := fun σ : Adopt ι => storedVersion path root σ.file)
    (fun _ _ _ h hs => good_step h hs) (fun _ _ _ h hs => storedVersion_le_step h hs) h hr

/-! ## What the calls answer -/

/-- What a call's answer says about the run: `Ok(true)` that it wrote, `Ok` that the file is at
least as new as its candidate, an error that the candidate was refused or a step failed. -/
structure Answers (root : NodeId) (es : List (AdoptEvent ι)) (v : WithBot StateVersion) (i : ι)
    (c : Call) (r : Except Anyhow Bool) : Prop where
  wrote : r = .ok true ↔ .write i ∈ es
  adopted : ∀ b, r = .ok b → checkOffered root c.candidate.policy c.now = .ok () ∧
    c.candidate.policy.version ≤ v ∧ ∀ why, .fails i why ∉ es
  refused : ∀ e, r = .error e → checkOffered root c.candidate.policy c.now ≠ .ok () ∨
    ∃ why, .fails i why ∈ es

/-- What the events so far are to a call: its arguments are the ones it was made with, it has
neither written nor failed while it is pending, and its answer is true. -/
structure Tells (root : NodeId) (es : List (AdoptEvent ι)) (v : WithBot StateVersion) (i : ι)
    (o : Option Call) : Prop where
  called : ∀ c now, .call i c now ∈ es ↔ ∃ d, o = some d ∧ d.candidate = c ∧ d.now = now
  quiet : (∀ c, o = some c → c.stage.pending = true) → .write i ∉ es ∧ ∀ why, .fails i why ∉ es
  done : ∀ c r, o = some c → c.stage.result = some r → Answers root es v i c r

/-- The call an event is a step of. -/
def who : AdoptEvent ι → ι
  | .call i _ _ | .lock i | .read i | .write i | .unlock i | .fails i _ => i

variable {es : List (AdoptEvent ι)} {v w : WithBot StateVersion} {i : ι} {c : Call}

section

omit [DecidableEq ι]

/-- Another call's step changes nothing for a call but what the file may hold. -/
theorem Tells.other {o : Option Call} (h : Tells root es v i o) (he : who e ≠ i) (hv : v ≤ w) :
    Tells root (es ++ [e]) w i o := by
  have hmem : ∀ e', who e' = i → (e' ∈ es ++ [e] ↔ e' ∈ es) := fun e' he' => by
    rw [List.mem_append, List.mem_singleton, or_iff_left]
    rintro rfl
    exact he he'
  refine ⟨fun c now => ?_, fun hq => ?_, fun c r ho hr => ?_⟩
  · rw [hmem _ rfl]
    exact h.called c now
  · rw [hmem _ rfl]
    exact ⟨(h.quiet hq).1, fun why => by rw [hmem _ rfl]; exact (h.quiet hq).2 why⟩
  · have ha := h.done c r ho hr
    refine ⟨?_, fun b hb => ?_, fun x hx => ?_⟩
    · rw [hmem _ rfl]
      exact ha.wrote
    · obtain ⟨hc, hle, hf⟩ := ha.adopted b hb
      exact ⟨hc, hle.trans hv, fun why => by rw [hmem _ rfl]; exact hf why⟩
    · refine (ha.refused x hx).imp id fun ⟨why, hf⟩ => ⟨why, ?_⟩
      rw [hmem _ rfl]
      exact hf

/-- A pending call's step to another pending stage. -/
theorem Tells.pends (h : Tells root es v i (some c)) (hp : c.stage.pending = true)
    {stage : Stage} (hq : stage.pending = true) (he : e = .lock i ∨ e = .read i) :
    Tells root (es ++ [e]) v i (some { c with stage }) := by
  have hquiet := h.quiet fun d hd => by
    cases hd
    exact hp
  refine ⟨fun d now => ?_, fun _ => ?_, fun d r hd hr => ?_⟩
  · have := h.called d now
    rcases he with rfl | rfl <;> simpa using this
  · rcases he with rfl | rfl <;> simpa using hquiet
  · cases hd
    cases stage <;> simp_all [Stage.pending, Stage.result]

/-- A pending call's step to its answer. -/
theorem Tells.answers (h : Tells root es v i (some c)) {r : Except Anyhow Bool} {stage : Stage}
    (hr : stage.result = some r) (he : ∀ d now, e ≠ .call i d now)
    (ha : Answers root (es ++ [e]) w i c r) :
    Tells root (es ++ [e]) w i (some { c with stage }) := by
  refine ⟨fun d now => ?_, fun hq => ?_, fun d r' hd hr' => ?_⟩
  · have := h.called d now
    simpa [(he d now).symm] using this
  · have := hq _ rfl
    cases stage <;> simp_all [Stage.pending, Stage.result]
  · cases hd
    cases hr.symm.trans hr'
    exact ⟨ha.wrote, ha.adopted, ha.refused⟩

/-- A call that is made. -/
theorem Tells.makes (h : Tells root es v i none) {c : Candidate} {now : Int64} {stage : Stage}
    (hd : ∀ r, stage.result = some r →
      Answers root (es ++ [.call i c now]) w i ⟨c, now, stage⟩ r) :
    Tells root (es ++ [.call i c now]) w i (some ⟨c, now, stage⟩) := by
  obtain ⟨hw, hf⟩ := h.quiet nofun
  have hnone : ∀ d now, .call i d now ∉ es := fun d now hm => by
    obtain ⟨x, hx, -⟩ := (h.called d now).mp hm
    cases hx
  refine ⟨fun d now' => ?_, fun _ => ?_, fun d r he hr => ?_⟩
  · simp [hnone, eq_comm]
  · simpa using ⟨hw, hf⟩
  · cases he
    exact hd r hr

/-- What the events so far are to the whole state. -/
structure Told (path : String) (root : NodeId) (v₀ : WithBot StateVersion)
    (es : List (AdoptEvent ι)) (σ : Adopt ι) : Prop where
  tells : ∀ i, Tells root es (storedVersion path root σ.file) i (σ.calls i)
  source : storedVersion path root σ.file = v₀ ∨ ∃ i c, σ.calls i = some c ∧ .write i ∈ es ∧
    checkOffered root c.candidate.policy c.now = .ok () ∧
    storedVersion path root σ.file = c.candidate.policy.version

theorem Told.start {file : PolicyFile} :
    Told path root (storedVersion path root file) [] (start file : Adopt ι) :=
  ⟨fun _ => ⟨by simp [Adopt.start], by simp, nofun⟩, .inl rfl⟩

end

/-- What a call's own step makes of it. -/
theorem tells_step (hg : Locked σ ∧ Sound path root σ) (hm : Moves path root σ e τ)
    (h : Tells root es (storedVersion path root σ.file) (who e) (σ.calls (who e))) :
    Tells root (es ++ [e]) (storedVersion path root τ.file) (who e) (τ.calls (who e)) := by
  have hsame : ∀ {i : ι} {c : Call} {stage : Stage},
      (σ.goes i c stage).calls i = some { c with stage } := fun {i c stage} => by
    rw [calls_goes, if_pos rfl]
  have hquiet : ∀ {i : ι} {c : Call}, σ.calls i = some c → c.stage.pending = true →
      Tells root es (storedVersion path root σ.file) i (σ.calls i) →
      .write i ∉ es ∧ ∀ why, .fails i why ∉ es := fun {i c} hi hp h =>
    h.quiet fun d hd => by
      rw [hi] at hd
      cases hd
      exact hp
  cases hm with
  | offered hi hc =>
    rw [who, hi] at h
    rw [who, hsame]
    exact h.makes nofun
  | @refused i c now x hi hc =>
    rw [who, hi] at h
    rw [who, hsame]
    have hnew := h.quiet nofun
    refine h.makes fun r hr => ?_
    cases hr
    refine ⟨by simpa using hnew.1, nofun, fun _ _ => .inl ?_⟩
    simp [hc]
  | @locks i c hi hs =>
    rw [who, hi] at h
    show Tells root _ _ i ((σ.goes i c .reads).calls i)
    rw [hsame]
    exact h.pends (by simp [hs, Stage.pending]) rfl (.inl rfl)
  | unread hi hs hr =>
    obtain ⟨held, hh⟩ := hg.2.stored
    rw [hr] at hh
    cases hh
  | first hi hs | newer hi hs =>
    rw [who, hi] at h
    rw [who, hsame]
    exact h.pends (by simp [hs, Stage.pending]) rfl (.inr rfl)
  | @older i c stored hi hs hr hn =>
    have hp : c.stage.pending = true := by simp [hs, Stage.pending]
    have hq := hquiet hi hp h
    have hc := hg.2.checked i c hi hp
    rw [who, hi] at h
    rw [who, hsame]
    refine h.answers rfl nofun ⟨by simpa using hq.1, fun b _ => ⟨hc, ?_, by simpa using hq.2⟩, nofun⟩
    rw [isNewerThan_iff (checkOffered_eq_ok.mp hc).1 stored.verified, not_lt] at hn
    rw [file_goes, storedVersion_of_read hr]
    exact WithBot.coe_le_coe.mpr hn
  | @writes i c hi hs =>
    have hp : c.stage.pending = true := by simp [hs, Stage.pending]
    have hq := hquiet hi hp h
    have hc := hg.2.checked i c hi hp
    rw [who, hi] at h
    show Tells root _ _ i ((σ.goes i c (.unlocks (.ok true))).calls i)
    rw [hsame]
    refine h.answers rfl nofun ⟨by simp, fun b _ => ⟨hc, ?_, by simpa using hq.2⟩, nofun⟩
    exact (storedVersion_policyText path (checkOffered_eq_ok.mp hc).1).ge
  | @unlocks i c r hi hs =>
    have ha : Answers root es _ i c r := h.done c r hi (by simp [hs, Stage.result])
    rw [who, hi] at h
    show Tells root _ _ i ((σ.goes i c (.returned r)).calls i)
    rw [hsame]
    refine h.answers rfl nofun ⟨by simpa using ha.wrote, fun b hb => ?_, fun x hx => ?_⟩
    · simpa using ha.adopted b hb
    · simpa using ha.refused x hx
  | @failsWaiting i c why hi hs =>
    have hq := hquiet hi (by simp [hs, Stage.pending]) h
    rw [who, hi] at h
    rw [who, hsame]
    exact h.answers rfl nofun ⟨by simpa using hq.1, nofun, fun _ _ => .inr ⟨why, by simp⟩⟩
  | @failsLocked i c why hi hs =>
    have hq := hquiet hi (by rcases hs with hs | hs <;> simp [hs, Stage.pending]) h
    rw [who, hi] at h
    rw [who, hsame]
    exact h.answers rfl nofun ⟨by simpa using hq.1, nofun, fun _ _ => .inr ⟨why, by simp⟩⟩

/-- A step is one call's: the others are where they were. -/
theorem calls_of_ne (hm : Moves path root σ e τ) (hi : who e ≠ i) : τ.calls i = σ.calls i := by
  have hother : ∀ {j : ι} {c : Call} {stage : Stage}, j ≠ i →
      (σ.goes j c stage).calls i = σ.calls i := fun hj => by
    rw [calls_goes, if_neg hj.symm]
  cases hm <;> exact hother hi

theorem Told.step {v₀ : WithBot StateVersion} (hg : Locked σ ∧ Sound path root σ)
    (hs : σ.step path root e = some τ) (h : Told path root v₀ es σ) :
    Told path root v₀ (es ++ [e]) τ := by
  have hm := moves_of_step hs
  have hle := storedVersion_le_step hg hs
  have htells : ∀ i, Tells root (es ++ [e]) (storedVersion path root τ.file) i (τ.calls i) := by
    intro i
    by_cases hi : who e = i
    · subst hi
      exact tells_step hg hm (h.tells _)
    · rw [calls_of_ne hm hi]
      exact (h.tells i).other hi hle
  refine ⟨htells, ?_⟩
  obtain ⟨hf, hne⟩ | ⟨i, c, rfl, hi, hc, -, hv, -⟩ := storedVersion_step hg.2 hm
  · rw [hf]
    refine h.source.imp id ?_
    rintro ⟨i, c, hi, hw, hc, hv⟩
    have hcall := ((h.tells i).called c.candidate c.now).mpr ⟨c, hi, rfl, rfl⟩
    obtain ⟨d, hd, hdc, hdn⟩ :=
      ((htells i).called c.candidate c.now).mp (List.mem_append_left _ hcall)
    exact ⟨i, d, hd, List.mem_append_left _ hw, by rwa [hdc, hdn], by rwa [hdc]⟩
  · have hcall := ((h.tells i).called c.candidate c.now).mpr ⟨c, hi, rfl, rfl⟩
    obtain ⟨d, hd, hdc, hdn⟩ :=
      ((htells i).called c.candidate c.now).mp (List.mem_append_left _ hcall)
    exact .inr ⟨i, d, hd, by simp, by rwa [hdc, hdn], by rwa [hdc]⟩

/-! ## Runs -/

section

variable {file : PolicyFile} {held : Option (Held root)}

theorem good_of_run (hread : read path root file = .ok held)
    (hr : run (step path root) (start file) es = some σ) : Locked σ ∧ Sound path root σ :=
  run_invariant (P := fun σ => Locked σ ∧ Sound path root σ) (fun _ _ _ hg hs => good_step hg hs)
    (good_start hread) hr

theorem told_of_run (hread : read path root file = .ok held)
    (hr : run (step path root) (start file) es = some σ) :
    Told path root (storedVersion path root file) es σ :=
  run_induction (motive := fun es σ => Told path root (storedVersion path root file) es σ)
    Told.start (fun _ _ _ _ ht h hs => h.step (good_of_run hread ht) hs) hr

/-- One of the events was call `i`'s write, which put its candidate in the place of an older
policy or of none. -/
def Replaces (path : String) (root : NodeId) (file : PolicyFile) (es : List (AdoptEvent ι)) (i : ι)
    (candidate : Candidate) : Prop :=
  ∃ es₁ es₂ σ τ, es = es₁ ++ .write i :: es₂ ∧ run (step path root) (start file) es₁ = some σ ∧
    σ.step path root (.write i) = some τ ∧ τ.file = .text (policyText candidate.policy) ∧
    storedVersion path root σ.file < candidate.policy.version

theorem replaces_iff (hread : read path root file = .ok held)
    (hr : run (step path root) (start file) es = some σ) (hi : σ.calls i = some c) :
    Replaces path root file es i c.candidate ↔ .write i ∈ es := by
  constructor
  · rintro ⟨es₁, es₂, -, -, rfl, -⟩
    simp
  · intro hw
    obtain ⟨es₁, es₂, rfl⟩ := List.append_of_mem hw
    obtain ⟨σ₁, hrun, hrest⟩ := run_append.mp hr
    obtain ⟨σ₂, hstep, -⟩ := run_cons.mp hrest
    refine ⟨es₁, es₂, σ₁, σ₂, rfl, hrun, hstep, ?_⟩
    have hg := good_of_run hread hrun
    obtain ⟨-, hne⟩ | ⟨j, d, hj, hd, -, hfile, hv, hlt⟩ :=
      storedVersion_step hg.2 (moves_of_step hstep)
    · exact absurd rfl (hne i)
    · cases hj
      -- the call that writes is the one that was made, with its own candidate
      have hcalled := (((told_of_run hread hrun).tells i).called _ _).mpr ⟨d, hd, rfl, rfl⟩
      obtain ⟨x, hx, hc, -⟩ :=
        (((told_of_run hread hr).tells i).called _ _).mp (List.mem_append_left _ hcalled)
      cases hi.symm.trans hx
      rw [hc]
      exact ⟨hfile, hv ▸ hlt⟩

/-- The versions a file may end with: the one it started with, and those of the candidates that
verified and were unexpired when offered, whose calls met no failure. -/
def offeredVersions (path : String) (root : NodeId) (file : PolicyFile)
    (es : List (AdoptEvent ι)) : Set (WithBot StateVersion) :=
  {v | v = storedVersion path root file ∨ ∃ i c now, .call i c now ∈ es ∧
    c.policy.verify root = .ok () ∧ now ≤ c.policy.head.head.notAfter ∧
    (∀ why, .fails i why ∉ es) ∧ v = c.policy.version}

/-- When every call has returned, the file holds the highest version offered. -/
theorem isGreatest_storedVersion (hread : read path root file = .ok held)
    (hr : run (step path root) (start file) es = some σ)
    (hdone : ∀ i c, σ.calls i = some c → ∃ r, c.stage = .returned r) :
    IsGreatest (offeredVersions path root file es) (storedVersion path root σ.file) := by
  have htold := told_of_run hread hr
  constructor
  · obtain heq | ⟨i, c, hi, hw, hc, hv⟩ := htold.source
    · exact .inl heq
    · obtain ⟨hver, hfresh⟩ := checkOffered_eq_ok.mp hc
      obtain ⟨r, hstage⟩ := hdone i c hi
      have ha := (htold.tells i).done c r hi (by rw [hstage]; rfl)
      obtain ⟨-, -, hnofail⟩ := ha.adopted true (ha.wrote.mpr hw)
      exact .inr ⟨i, c.candidate, c.now, ((htold.tells i).called _ _).mpr ⟨c, hi, rfl, rfl⟩, hver,
        hfresh, hnofail, hv⟩
  · rintro v (rfl | ⟨i, candidate, now, hcall, hver, hfresh, hnofail, rfl⟩)
    · exact storedVersion_le (good_start hread) hr
    · obtain ⟨c, hi, rfl, rfl⟩ := ((htold.tells i).called _ _).mp hcall
      obtain ⟨r, hstage⟩ := hdone i c hi
      have ha := (htold.tells i).done c r hi (by rw [hstage]; rfl)
      cases hres : r with
      | ok b => exact (ha.adopted b hres).2.1
      | error x =>
        obtain hbad | ⟨why, hfail⟩ := ha.refused x hres
        · exact absurd (checkOffered_eq_ok.mpr ⟨hver, hfresh⟩) hbad
        · exact absurd hfail (hnofail why)

end

end

end Adopt

/-! ## Sample versions -/

section Sample

attribute [local instance] Crypto.plain

/-- The sample policy at a version, whose service has one host. -/
def versionHeld (version : StateVersion) (host : NodeId)
    (h : (samplePolicy version [host]).validate = .ok ()) : Held (nodeId sampleRoot) :=
  ⟨(samplePolicy version [host]).signed sampleRoot none, samplePolicy version [host],
    Policy.verify_signed_none rfl h, Policy.toPolicy_signed rfl⟩

/-- The sample policy at a version, as it is offered. -/
def versionOffer (version : StateVersion) (host : NodeId) : Candidate :=
  ⟨(samplePolicy version [host]).signed sampleRoot none, Policy.parsed_signed parsed_samplePolicy⟩

theorem read_versionOffer {version : StateVersion} {host : NodeId}
    (h : (samplePolicy version [host]).validate = .ok ()) :
    read "policy.json" (nodeId sampleRoot) (.text (policyText (versionOffer version host).policy)) =
      .ok (some (versionHeld version host h)) := by
  obtain ⟨held, hread, hs⟩ := read_policyText "policy.json" (c := versionOffer version host)
    (versionHeld version host h).verified
  have hverify := Held.verify_eq_ok.mpr hs
  have hsame := Held.verify_eq_ok (h := versionHeld version host h).mpr rfl
  rw [hread, Except.ok.inj (hverify.symm.trans hsame)]

end Sample

end Wires
