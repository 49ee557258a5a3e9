import Wires.Proof.Fetching

/-!
# Who is told the token

`ask_proven` sends the token and the request to a directory where `askWaiting`
finds its proof good. `toldWaiting` and `toldTurns` list, in order, the
directories told, with the pool and the time of the check. Each was vouched for
at that time (`told_vouched`), and where no answer is taken, `not_admitted` is
set just if one of them refused the node admission (`notAdmitted_iff`).
-/

namespace Wires

variable [Crypto]

/-- A directory that is told the token, with the pool and the time when its proof was checked. -/
structure Told where
  opened : Opened
  pool : FreshSet
  at_ : Int64

/-- The directories told in one pass of `askWaiting`, in order. -/
def toldWaiting {T : Type} (vouched : Int64 → Opened → Except Anyhow Unit)
    (take : SignedPolicyHead → DirectoryAnswer → Except Anyhow T) (clock : Nat → Int64) :
    Nat → List Opened → Unanswered → List (Opened × Int64)
  | _, [], _ => []
  | k, o :: os, out =>
    match vouched (clock k) o with
    | .error _ => toldWaiting vouched take clock (k + 1) os out
    | .ok () => (o, clock k) :: match o.ask take out with
      | .ok _ => []
      | .error out => toldWaiting vouched take clock (k + 1) os out

section

variable {T : Type} (root : NodeId) (known : List NodeId) (held : Option SignedPolicyHead)
  (take : SignedPolicyHead → DirectoryAnswer → FreshSet → Except Anyhow T)

/-- One pass of the loop, with the pool. -/
abbrev askPass (pool : FreshSet) (clock : Nat → Int64) (waiting : List Opened) (out : Unanswered) :
    Except (List Opened × Unanswered) T :=
  askWaiting (fun now o => directoryVouched o.proof pool root held known o.dir now)
    (fun head answer => take head answer pool) clock 1 waiting out

/-- Those it tells. -/
def toldPass (pool : FreshSet) (clock : Nat → Int64) (waiting : List Opened) (out : Unanswered) :
    List Told :=
  (toldWaiting (fun now o => directoryVouched o.proof pool root held known o.dir now)
    (fun head answer => take head answer pool) clock 1 waiting out).map fun p => ⟨p.1, pool, p.2⟩

/-- The directories told in all, in order. -/
def toldTurns : List Turn → FreshSet → List Opened → Unanswered → List Told
  | [], _, _, _ => []
  | t :: ts, pool, waiting, out =>
    let round (pool : FreshSet) (waiting : List Opened) (out : Unanswered) :=
      toldPass root known held take pool t.clock waiting out ++
        match askPass root known held take pool t.clock waiting out with
        | .ok _ => []
        | .error (waiting, out) => toldTurns ts pool waiting out
    match t.arrival with
    | .lost => toldTurns ts pool waiting out
    | .failed dir why => round pool waiting (out.failed dir (oneLine why))
    | .opened o => round (pooled root held pool o.proof (t.clock 0)) (waiting ++ [o]) out

end

/-- The directories `ask_proven` tells. -/
def told {T : Type} {root : NodeId} (known : List NodeId) (held : Option (HeldView root))
    (take : SignedPolicyHead → DirectoryAnswer → FreshSet → Except Anyhow T) (turns : List Turn) :
    List Told :=
  toldTurns root known (held.map (·.view.head)) take turns
    ((held.map (·.fresh)).getD FreshSet.empty) [] ⟨[], false⟩

/-! ## One pass -/

section

variable {T : Type} {vouched : Int64 → Opened → Except Anyhow Unit}
  {take : SignedPolicyHead → DirectoryAnswer → Except Anyhow T} {clock : Nat → Int64} {k : Nat}
  {os left : List Opened} {out out' : Unanswered}

section

variable {o : Opened}

omit [Crypto] in
/-- One that may not be told is not, and waits on. -/
theorem pass_refused {why : Anyhow} (hv : vouched (clock k) o = .error why) :
    toldWaiting vouched take clock k (o :: os) out = toldWaiting vouched take clock (k + 1) os out ∧
      askWaiting vouched take clock k (o :: os) out =
        (askWaiting vouched take clock (k + 1) os out).mapError fun p => (o :: p.1, p.2) := by
  rw [toldWaiting, askWaiting, hv]
  refine ⟨rfl, ?_⟩
  cases askWaiting vouched take clock (k + 1) os out with
  | ok t => rfl
  | error p => rfl

omit [Crypto] in
/-- The pass goes on after one that is told, if its answer is not taken. -/
theorem pass_told (hv : vouched (clock k) o = .ok ()) (hask : o.ask take out = .error out') :
    toldWaiting vouched take clock k (o :: os) out =
        (o, clock k) :: toldWaiting vouched take clock (k + 1) os out' ∧
      askWaiting vouched take clock k (o :: os) out = askWaiting vouched take clock (k + 1) os out' := by
  rw [toldWaiting, askWaiting, hv]
  simp only [hask, and_self]

omit [Crypto] in
/-- It ends with one that is told, if it is. -/
theorem pass_taken {taken : T} (hv : vouched (clock k) o = .ok ()) (hask : o.ask take out = .ok taken) :
    toldWaiting vouched take clock k (o :: os) out = [(o, clock k)] ∧
      askWaiting vouched take clock k (o :: os) out = .ok taken := by
  rw [toldWaiting, askWaiting, hv]
  simp only [hask, and_self]

omit [Crypto] in
/-- Where no answer is taken, one that may not be told is among those left. -/
theorem left_refused {why : Anyhow} (hv : vouched (clock k) o = .error why)
    (h : askWaiting vouched take clock k (o :: os) out = .error (left, out')) :
    ∃ left', left = o :: left' ∧ askWaiting vouched take clock (k + 1) os out = .error (left', out') := by
  rw [(pass_refused hv).2] at h
  cases hrest : askWaiting vouched take clock (k + 1) os out with
  | ok t =>
    rw [hrest] at h
    cases h
  | error p =>
    rw [hrest] at h
    cases h
    exact ⟨p.1, rfl, rfl⟩

omit [Crypto] in
/-- One that is told is not. -/
theorem left_told (hv : vouched (clock k) o = .ok ())
    (h : askWaiting vouched take clock k (o :: os) out = .error (left, out')) :
    ∃ out₁, o.ask take out = .error out₁ ∧
      askWaiting vouched take clock (k + 1) os out₁ = .error (left, out') := by
  cases hask : o.ask take out with
  | ok t =>
    rw [(pass_taken hv hask).2] at h
    cases h
  | error out₁ => exact ⟨out₁, rfl, (pass_told hv hask).2.symm.trans h⟩

end

omit [Crypto] in
theorem mem_toldWaiting {p : Opened × Int64} (h : p ∈ toldWaiting vouched take clock k os out) :
    p.1 ∈ os ∧ vouched p.2 p.1 = .ok () := by
  induction os generalizing k out with
  | nil => cases h
  | cons o os ih =>
    rw [toldWaiting] at h
    split at h
    · exact (ih h).imp_left (List.mem_cons_of_mem o)
    · rename_i hv
      rcases List.mem_cons.mp h with rfl | h
      · exact ⟨List.mem_cons_self, hv⟩
      · split at h
        · cases h
        · exact (ih h).imp_left (List.mem_cons_of_mem o)

omit [Crypto] in
theorem notAdmitted_ask {o : Opened} (h : o.ask take out = .error out') :
    out'.notAdmitted = true ↔ out.notAdmitted = true ∨ o.answer = .ok (.denied NOT_ADMITTED) := by
  unfold Opened.ask at h
  split at h
  · rename_i reason hanswer
    cases h
    rw [hanswer]
    simp [Unanswered.failed]
  · rename_i answer hnot hanswer
    split at h
    · cases h
    · cases h
      have hne : o.answer ≠ .ok (.denied NOT_ADMITTED) := fun heq =>
        hnot _ (Except.ok.inj (hanswer.symm.trans heq))
      simp [Unanswered.failed, hne]
  · rename_i e hanswer
    cases h
    rw [hanswer]
    simp [Unanswered.failed]

omit [Crypto] in
theorem notAdmitted_askWaiting (h : askWaiting vouched take clock k os out = .error (left, out')) :
    out'.notAdmitted = true ↔ out.notAdmitted = true ∨
      ∃ p ∈ toldWaiting vouched take clock k os out, p.1.answer = .ok (.denied NOT_ADMITTED) := by
  induction os generalizing k out left with
  | nil =>
    cases h
    simp [toldWaiting]
  | cons o os ih =>
    cases hv : vouched (clock k) o with
    | error why =>
      obtain ⟨left', -, hrest⟩ := left_refused hv h
      rw [(pass_refused hv).1]
      exact ih hrest
    | ok u =>
      obtain ⟨out₁, hask, hrest⟩ := left_told hv h
      rw [(pass_told hv hask).1]
      simp only [List.mem_cons, exists_eq_or_imp]
      rw [ih hrest, notAdmitted_ask hask, or_assoc]

end

/-! ## All turns -/

section

variable {T : Type} {root : NodeId} {known : List NodeId} {held : Option SignedPolicyHead}
  {take : SignedPolicyHead → DirectoryAnswer → FreshSet → Except Anyhow T} {last : Int64}
  {t : Turn} {ts : List Turn} {pool : FreshSet} {waiting : List Opened} {out : Unanswered}

/-- What a turn begins with: the pool, who waits, and what has failed, once the arrival is taken in;
none where the task that asked did not finish. -/
def Turn.begins (root : NodeId) (held : Option SignedPolicyHead) (t : Turn) (pool : FreshSet)
    (waiting : List Opened) (out : Unanswered) : Option (FreshSet × List Opened × Unanswered) :=
  match t.arrival with
  | .lost => none
  | .failed dir why => some (pool, waiting, out.failed dir (oneLine why))
  | .opened o => some (pooled root held pool o.proof (t.clock 0), waiting ++ [o], out)

theorem askTurns_cons (last : Int64) : askTurns root known held take last (t :: ts) pool waiting out =
    match t.begins root held pool waiting out with
    | none => askTurns root known held take last ts pool waiting out
    | some (pool, waiting, out) =>
      match askPass root known held take pool t.clock waiting out with
      | .ok a => .ok a
      | .error (waiting, out) => askTurns root known held take last ts pool waiting out := by
  rw [askTurns, Turn.begins]
  cases t.arrival <;> rfl

theorem toldTurns_cons : toldTurns root known held take (t :: ts) pool waiting out =
    match t.begins root held pool waiting out with
    | none => toldTurns root known held take ts pool waiting out
    | some (pool, waiting, out) =>
      toldPass root known held take pool t.clock waiting out ++
        match askPass root known held take pool t.clock waiting out with
        | .ok _ => []
        | .error (waiting, out) => toldTurns root known held take ts pool waiting out := by
  rw [toldTurns, Turn.begins]
  cases t.arrival <;> rfl

theorem begins_eq_some {pool' : FreshSet} {waiting' : List Opened} {out' : Unanswered}
    (h : t.begins root held pool waiting out = some (pool', waiting', out')) :
    out'.notAdmitted = out.notAdmitted := by
  unfold Turn.begins at h
  split at h
  · cases h
  · cases h
    rfl
  · cases h
    rfl

theorem mem_toldPass {p : Told} {clock : Nat → Int64}
    (h : p ∈ toldPass root known held take pool clock waiting out) : p.pool = pool ∧
      p.opened ∈ waiting ∧
      directoryVouched p.opened.proof p.pool root held known p.opened.dir p.at_ = .ok () := by
  obtain ⟨q, hq, rfl⟩ := List.mem_map.mp h
  exact ⟨rfl, mem_toldWaiting hq⟩

theorem vouched_of_mem_toldTurns {p : Told}
    (h : p ∈ toldTurns root known held take ts pool waiting out) :
    directoryVouched p.opened.proof p.pool root held known p.opened.dir p.at_ = .ok () := by
  induction ts generalizing pool waiting out with
  | nil => cases h
  | cons t ts ih =>
    rw [toldTurns_cons] at h
    split at h
    · exact ih h
    · rcases List.mem_append.mp h with h | h
      · exact (mem_toldPass h).2.2
      · split at h
        · cases h
        · exact ih h

theorem notAdmitted_askTurns {out' : Unanswered}
    (h : askTurns root known held take last ts pool waiting out = .error out') :
    out'.notAdmitted = true ↔ out.notAdmitted = true ∨
      ∃ p ∈ toldTurns root known held take ts pool waiting out,
        p.opened.answer = .ok (.denied NOT_ADMITTED) := by
  induction ts generalizing pool waiting out with
  | nil =>
    have hfold : ∀ (os : List Opened) (out : Unanswered), (os.foldl (fun out o =>
        out.failed o.dir (toldNothing root known held pool last o)) out).notAdmitted =
          out.notAdmitted := by
      intro os
      induction os with
      | nil => exact fun _ => rfl
      | cons o os ih => exact fun out => (ih _).trans rfl
    cases h
    rw [hfold]
    simp [toldTurns]
  | cons t ts ih =>
    rw [askTurns_cons] at h
    rw [toldTurns_cons]
    cases hb : t.begins root held pool waiting out with
    | none =>
      simp only [hb] at h ⊢
      exact ih h
    | some b =>
      obtain ⟨pool', waiting', out''⟩ := b
      simp only [hb] at h ⊢
      cases hpass : askPass root known held take pool' t.clock waiting' out'' with
      | ok a =>
        simp only [hpass] at h
        cases h
      | error left =>
        simp only [hpass] at h ⊢
        have hone := notAdmitted_askWaiting hpass
        rw [begins_eq_some hb] at hone
        rw [ih h, hone, or_assoc]
        apply or_congr_right
        simp only [List.mem_append, or_and_right, exists_or, toldPass, List.mem_map,
          exists_exists_and_eq_and]

end

/-- Each directory told was vouched for when it was. -/
theorem told_vouched {T : Type} {root : NodeId} {known : List NodeId} {held : Option (HeldView root)}
    {take : SignedPolicyHead → DirectoryAnswer → FreshSet → Except Anyhow T} {turns : List Turn}
    {p : Told} (h : p ∈ told known held take turns) :
    directoryVouched p.opened.proof p.pool root (held.map (·.view.head)) known p.opened.dir p.at_ =
      .ok () := vouched_of_mem_toldTurns h

/-- Where no answer is taken, the node was refused admission just if a directory told did so. -/
theorem notAdmitted_iff {T : Type} {root : NodeId} {known : List NodeId}
    {held : Option (HeldView root)}
    {take : SignedPolicyHead → DirectoryAnswer → FreshSet → Except Anyhow T} {turns : List Turn}
    {last : Int64} {out : Unanswered} (h : askProven known held take turns last = .error out) :
    out.notAdmitted = true ↔
      ∃ p ∈ told known held take turns, p.opened.answer = .ok (.denied NOT_ADMITTED) := by
  rw [notAdmitted_askTurns h]
  simp [told]

end Wires
