import Wires.Impl.HeldView

/-!
# What a fetch takes

A view `fetch` accepts came, whole, from one directory, under the head that
directory proved, with a word for it, and the directory's proof checked out
when it was asked (`fetch_eq_ok`): the loop of `ask_proven` only passes over
directories. In the other direction, one directory that shows a word vouching
for a head can have any view under that head accepted (`exists_fetch`).
-/

namespace Wires

variable [Crypto]

/-! ## Words taken in -/

namespace FreshSet

theorem insert_empty (v : VerifiedFresh) (now : Int64) : (empty.insert v now).1 = ⟨[v]⟩ := rfl

/-- A word already held ranks no higher than itself. -/
theorem insert_singleton (v w : VerifiedFresh) (now : Int64) (h : w.fresh = v.fresh) :
    ((⟨[v]⟩ : FreshSet).insert w now).1 = ⟨[v]⟩ := by
  simp [insert, rankLe, h]

/-- A set of one word, shown the same word again. -/
theorem learn_singleton {v : VerifiedFresh} {head : SignedPolicyHead} {now : Int64} :
    (⟨[v]⟩ : FreshSet).learn [v.fresh] head now = ⟨[v]⟩ := by
  rw [learn, List.foldl_cons, List.foldl_nil]
  split
  · rename_i w hw
    exact insert_singleton v w now (Fresh.toVerified_eq_ok.mp hw).2
  · rfl

theorem currentFor_singleton {v : VerifiedFresh} {head : SignedPolicyHead} {now : Int64}
    (hv : v.fresh.verify head = .ok ()) (hc : v.fresh.isCurrent now = true) :
    (⟨[v]⟩ : FreshSet).currentFor head now = [v.fresh] := by
  have hok : isOk (v.fresh.verify head) = true := isOk_unit_iff.mpr hv
  simp [currentFor, hok, hc, MAX_FRESH_SET]

end FreshSet

/-! ## A view that is taken -/

section

variable {root : NodeId} {known : List NodeId} {held : Option (HeldView root)} {now : Int64}

theorem takeView_eq_ok {proved : SignedPolicyHead} {answer : DirectoryAnswer} {pool : FreshSet}
    {h : HeldView root} (ht : takeView held now proved answer pool = .ok h) :
    h.view.head = proved ∧ ∃ word, answer = .view h.view word ∧ word.verify proved = .ok () := by
  unfold takeView at ht
  split at ht
  · rename_i view word
    obtain ⟨_, hhead, ht⟩ := bind_eq_ok.mp ht
    have hhead := ensure_eq_ok.mp hhead
    split at ht
    · cases ht
    · simp only [bind_eq_ok, context_eq_ok, anyhow_eq_ok, pure_eq_ok, exists_and_right, exists_ok_unit] at ht
      obtain ⟨hword, -, rfl⟩ := ht
      exact ⟨hhead, word, rfl, hhead ▸ hword⟩
  · cases ht
  · cases ht

/-- No view older than the one held is taken. -/
theorem version_le_of_takeView {proved : SignedPolicyHead} {answer : DirectoryAnswer}
    {pool : FreshSet} {h old : HeldView root} (ht : takeView held now proved answer pool = .ok h)
    (hold : held = some old) : old.version ≤ h.version := by
  unfold takeView at ht
  split at ht
  · rename_i view word
    obtain ⟨_, -, ht⟩ := bind_eq_ok.mp ht
    split at ht
    · cases ht
    · simp only [bind_eq_ok, context_eq_ok, anyhow_eq_ok, pure_eq_ok, ensure_eq_ok, exists_const,
        exists_and_right, exists_ok_unit] at ht
      obtain ⟨-, hle, rfl⟩ := ht
      rw [hold] at hle
      have hversion : old.version ≤ view.head.head.version := by simpa using hle
      exact hversion
  · cases ht
  · cases ht

/-- Any view that verifies, under the head proved, is taken by a caller that holds none that is
newer. -/
theorem takeView_of_verify {view : View} {word : Fresh} (hv : view.verify root = .ok ())
    (hw : word.verify view.head = .ok ())
    (hheld : ∀ old, held = some old → old.version ≤ view.head.head.version) (pool : FreshSet) :
    takeView held now view.head (.view view word) pool =
      .ok (((HeldView.fetched view hv (some word) now).keeping held now).learnAll pool.iter now) := by
  have hle : held.all (fun old => ¬view.head.head.version < old.version) = true := by
    cases held with
    | none => rfl
    | some old => simpa using hheld old rfl
  unfold takeView
  simp only [ensure_of, ok_bind]
  split
  · rename_i e he
    rw [hv] at he
    cases he
  · rw [hw, ensure_of hle]
    rfl

/-! ## The loop -/

variable {T : Type}

omit [Crypto] in
theorem ask_eq_ok {take : SignedPolicyHead → DirectoryAnswer → Except Anyhow T} {o : Opened}
    {out : Unanswered} {t : T} (h : o.ask take out = .ok t) :
    ∃ answer, o.answer = .ok answer ∧ take o.proof.head answer = .ok t := by
  unfold Opened.ask at h
  split at h
  · cases h
  · rename_i answer _ ha
    split at h
    · rename_i t' ht
      cases h
      exact ⟨answer, ha, ht⟩
    · cases h
  · cases h

omit [Crypto] in
/-- One pass over the waiting directories: the answer taken is one's whose proof checked out. -/
theorem askWaiting_eq_ok {vouched : Int64 → Opened → Except Anyhow Unit}
    {take : SignedPolicyHead → DirectoryAnswer → Except Anyhow T} {clock : Nat → Int64} {k : Nat}
    {os : List Opened} {out : Unanswered} {t : T}
    (h : askWaiting vouched take clock k os out = .ok t) :
    ∃ o ∈ os, (∃ now, vouched now o = .ok ()) ∧
      ∃ answer, o.answer = .ok answer ∧ take o.proof.head answer = .ok t := by
  induction os generalizing k out with
  | nil => cases h
  | cons o os ih =>
    have hrest : ∀ out, askWaiting vouched take clock (k + 1) os out = .ok t →
        ∃ o' ∈ o :: os, (∃ now, vouched now o' = .ok ()) ∧
          ∃ answer, o'.answer = .ok answer ∧ take o'.proof.head answer = .ok t := by
      intro out hr
      obtain ⟨o', ho', hr⟩ := ih hr
      exact ⟨o', List.mem_cons_of_mem _ ho', hr⟩
    rw [askWaiting] at h
    split at h
    · split at h
      · rename_i t' ht
        cases h
        exact hrest _ ht
      · cases h
    · rename_i hv
      split at h
      · rename_i t' ht
        cases h
        exact ⟨o, List.mem_cons_self, ⟨_, hv⟩, ask_eq_ok ht⟩
      · exact hrest _ h

omit [Crypto] in
/-- One pass asks no one who is not waiting. -/
theorem askWaiting_subset {vouched : Int64 → Opened → Except Anyhow Unit}
    {take : SignedPolicyHead → DirectoryAnswer → Except Anyhow T} {clock : Nat → Int64} {k : Nat}
    {os left : List Opened} {out out' : Unanswered}
    (h : askWaiting vouched take clock k os out = .error (left, out')) : left ⊆ os := by
  induction os generalizing k out left with
  | nil =>
    cases h
    exact List.Subset.refl _
  | cons o os ih =>
    rw [askWaiting] at h
    split at h
    · split at h
      · cases h
      · rename_i left' out'' hrest
        cases h
        exact List.cons_subset_cons o (ih hrest)
    · split at h
      · cases h
      · exact fun x hx => List.mem_cons_of_mem o (ih h hx)

/-- One turn of the loop, where an answer is taken: of what arrives, or of a later one. -/
theorem askTurns_cons_eq_ok {heldHead : Option SignedPolicyHead}
    {take : SignedPolicyHead → DirectoryAnswer → FreshSet → Except Anyhow T} {last : Int64}
    {turn : Turn} {ts : List Turn} {pool : FreshSet} {waiting : List Opened} {out : Unanswered} {t : T}
    (h : askTurns root known heldHead take last (turn :: ts) pool waiting out = .ok t) :
    askTurns root known heldHead take last ts pool waiting out = .ok t ∨
    ∃ (pool : FreshSet) (now : List Opened) (out : Unanswered),
      (∀ o ∈ now, o ∈ waiting ∨ turn.arrival = .opened o) ∧
      (askWaiting (fun at_ o => directoryVouched o.proof pool root heldHead known o.dir at_)
          (fun head answer => take head answer pool) turn.clock 1 now out = .ok t ∨
        ∃ left out', askWaiting
            (fun at_ o => directoryVouched o.proof pool root heldHead known o.dir at_)
            (fun head answer => take head answer pool) turn.clock 1 now out = .error (left, out') ∧
          askTurns root known heldHead take last ts pool left out' = .ok t) := by
  rw [askTurns] at h
  split at h
  · exact .inl h
  · rename_i dir why _
    refine .inr ⟨pool, waiting, out.failed dir (oneLine why), fun o ho => .inl ho, ?_⟩
    beta_reduce at h
    split at h
    · rename_i a ha
      cases h
      exact .inl ha
    · rename_i left out' hleft
      exact .inr ⟨left, out', hleft, h⟩
  · rename_i o harrival
    refine .inr ⟨pooled root heldHead pool o.proof (turn.clock 0), waiting ++ [o], out, ?_, ?_⟩
    · intro o' ho'
      rcases List.mem_append.mp ho' with ho' | ho'
      · exact .inl ho'
      · exact .inr (List.mem_singleton.mp ho' ▸ harrival)
    · beta_reduce at h
      split at h
      · rename_i a ha
        cases h
        exact .inl ha
      · rename_i left out' hleft
        exact .inr ⟨left, out', hleft, h⟩

/-- Whatever is taken was answered by a directory that came, or was waiting, and whose proof checked
out. -/
theorem askTurns_eq_ok {heldHead : Option SignedPolicyHead}
    {take : SignedPolicyHead → DirectoryAnswer → FreshSet → Except Anyhow T} {last : Int64}
    {ts : List Turn} {pool : FreshSet} {waiting : List Opened} {out : Unanswered} {t : T}
    (h : askTurns root known heldHead take last ts pool waiting out = .ok t) :
    ∃ (o : Opened) (pool : FreshSet) (now : Int64) (answer : DirectoryAnswer),
      (o ∈ waiting ∨ ∃ turn ∈ ts, turn.arrival = .opened o) ∧ o.answer = .ok answer ∧
        directoryVouched o.proof pool root heldHead known o.dir now = .ok () ∧
        take o.proof.head answer pool = .ok t := by
  induction ts generalizing pool waiting out with
  | nil => cases h
  | cons turn ts ih =>
    rcases askTurns_cons_eq_ok h with hrest | ⟨pool, now, out, hnow, htaken | ⟨left, out', hleft, hrest⟩⟩
    · obtain ⟨o, pool, at_, answer, ho, hrest⟩ := ih hrest
      refine ⟨o, pool, at_, answer, ho.imp_right ?_, hrest⟩
      rintro ⟨turn', hturn, harrival⟩
      exact ⟨turn', List.mem_cons_of_mem _ hturn, harrival⟩
    · obtain ⟨o, ho, ⟨at_, hv⟩, answer, hanswer, ht⟩ := askWaiting_eq_ok htaken
      have hcame : o ∈ waiting ∨ ∃ turn' ∈ turn :: ts, turn'.arrival = .opened o :=
        (hnow o ho).imp_right fun harrival => ⟨turn, List.mem_cons_self, harrival⟩
      exact ⟨o, pool, at_, answer, hcame, hanswer, hv, ht⟩
    · obtain ⟨o, pool, at_, answer, ho, hrest⟩ := ih hrest
      refine ⟨o, pool, at_, answer, ?_, hrest⟩
      rcases ho with ho | ⟨turn', hturn, harrival⟩
      · exact (hnow o (askWaiting_subset hleft ho)).imp_right fun h => ⟨turn, List.mem_cons_self, h⟩
      · exact .inr ⟨turn', List.mem_cons_of_mem _ hturn, harrival⟩

theorem fetch_eq_ok {turns : List Turn} {last : Int64} {h : HeldView root}
    (hf : fetch known held now turns last = .ok h) :
    ∃ (proof : HostProof) (pool : FreshSet) (dir : NodeId) (asked : Int64),
      proof.head = h.view.head ∧
      directoryVouched proof pool root (held.map (·.view.head)) known dir asked = .ok () := by
  unfold fetch at hf
  split at hf
  · rename_i h' ha
    cases hf
    obtain ⟨o, pool, asked, answer, -, -, hv, ht⟩ := askTurns_eq_ok ha
    exact ⟨o.proof, pool, o.dir, asked, (takeView_eq_ok ht).1.symm, hv⟩
  · split at hf <;> cases hf

/-- The views that directories answer with. -/
def offered (turns : List Turn) : List View := turns.filterMap fun turn =>
  match turn.arrival with
  | .opened ⟨_, _, .ok (.view view _)⟩ => some view
  | _ => none

/-- A view that is fetched was offered, and is no older than the one held. -/
theorem offered_of_fetch {turns : List Turn} {last : Int64} {h : HeldView root}
    (hf : fetch known held now turns last = .ok h) :
    h.view ∈ offered turns ∧ ∀ old, held = some old → old.version ≤ h.version := by
  unfold fetch at hf
  split at hf
  · rename_i h' ha
    cases hf
    obtain ⟨o, pool, asked, answer, hcame, hanswer, -, ht⟩ := askTurns_eq_ok ha
    refine ⟨?_, fun old => version_le_of_takeView ht⟩
    obtain ⟨-, word, rfl, -⟩ := takeView_eq_ok ht
    rcases hcame with hmem | ⟨turn, hturn, harrival⟩
    · cases hmem
    · refine List.mem_filterMap.mpr ⟨turn, hturn, ?_⟩
      obtain ⟨dir, proof, answer⟩ := o
      rw [harrival, show answer = .ok (.view h.view word) from hanswer]
  · split at hf <;> cases hf

end

/-! ## A head that can be shown -/

/-- Some directory the head lists can show it current: a word vouches for it to whoever dials that
directory, at a time the head has not expired. -/
def Vouchable (head : SignedPolicyHead) : Prop :=
  ∃ dir ∈ head.head.directories, ∃ (word : Fresh) (now : Int64),
    word.vouches head dir now = .ok () ∧ head.checkFresh now = .ok ()

/-- A directory that is the only one vouches for its own head. -/
theorem vouchable_of_sign {directory : NodeIdentity} {head : SignedPolicyHead}
    {at_ until_ now : Int64} {f : Fresh} (h : Fresh.sign directory head at_ until_ = .ok f)
    (hnow : now ≥ satSub at_ CLOCK_SKEW_SECS ∧ now ≤ until_) (hfresh : now ≤ head.head.notAfter)
    (halone : head.head.directories = [nodeId directory]) : Vouchable head := by
  obtain ⟨hverify, hdir, hat, huntil⟩ := Fresh.of_sign h
  have hcurrent : f.isCurrent now = true := by
    simp only [Fresh.isCurrent, hat, huntil, Bool.and_eq_true, decide_eq_true_eq]
    exact hnow
  have hlisted : nodeId directory ∈ head.head.directories := by
    rw [halone]
    exact List.mem_singleton_self _
  exact ⟨nodeId directory, hlisted, f, now, Fresh.vouches_eq_ok.mpr ⟨hverify, hcurrent, fun _ => halone⟩,
    SignedPolicyHead.checkFresh_eq_ok.mpr hfresh⟩

theorem vouchable_of_vouched {root : NodeId} {proof : HostProof} {pool : FreshSet}
    {held : Option SignedPolicyHead} {known : List NodeId} {dir : NodeId} {now : Int64}
    (h : directoryVouched proof pool root held known dir now = .ok ()) :
    Vouchable proof.head := by
  have hfacts : dir ∈ proof.head.head.directories ∧ proof.head.checkFresh now = .ok () ∧
      ∃ word : Fresh, isOk (word.vouches proof.head dir now) = true := by
    cases held with
    | none =>
      simp only [directoryVouched, bind_eq_ok, ensure_eq_ok, anyhow_eq_ok, exists_const,
        exists_and_right, exists_ok_unit, List.any_eq_true, Bool.and_eq_true] at h
      obtain ⟨hdir, -, -, hfresh, -, word, -, hword, -⟩ := h
      exact ⟨by simpa using hdir, hfresh, word, hword⟩
    | some head =>
      simp only [directoryVouched, bind_eq_ok, ensure_eq_ok, anyhow_eq_ok, exists_const,
        exists_and_right, exists_ok_unit, List.any_eq_true, Bool.and_eq_true] at h
      obtain ⟨hdir, -, ⟨st, hcheck⟩, word, -, hword, -⟩ := h
      have hfresh := (HostProof.check_eq_ok hcheck).2.1
      exact ⟨by simpa using hdir, SignedPolicyHead.checkFresh_eq_ok.mpr hfresh, word, hword⟩
  obtain ⟨hdir, hfresh, word, hword⟩ := hfacts
  exact ⟨dir, hdir, word, now, isOk_unit_iff.mp hword, hfresh⟩

/-- A directory is told what a caller asks that holds no view, or one under the same head, where
the one word there is, its own or the pool's, vouches for its head. -/
theorem directoryVouched_of_learn {root : NodeId} {head : SignedPolicyHead} {v : VerifiedFresh}
    {words : List Fresh} {dir : NodeId} {now : Int64} {held : Option SignedPolicyHead}
    (hset : (⟨[v]⟩ : FreshSet).learn (words.take MAX_FRESH_SET) head now = ⟨[v]⟩)
    (hverify : head.verify root = .ok ()) (hfresh : head.checkFresh now = .ok ())
    (hdir : dir ∈ head.head.directories) (hword : v.fresh.vouches head dir now = .ok ())
    (hheld : ∀ h, held = some h → h = head) :
    directoryVouched ⟨head, words⟩ ⟨[v]⟩ root held [] dir now = .ok () := by
  obtain ⟨hv, hcurrent, -⟩ := Fresh.vouches_eq_ok.mp hword
  have hvouching : (⟨head, [v.fresh]⟩ : HostProof).vouching dir now = .ok v.fresh := by
    simp [HostProof.vouching, HostProof.firstVouching, hword]
  have hlisted : head.head.directories.contains dir = true := by simpa using hdir
  have hany : [v.fresh].any (fun f =>
      isOk (f.vouches head dir now) && (f.directory ≠ dir || ([] : List NodeId).all fun d => d = dir)) =
      true := by
    simp [hword, isOk]
  cases held with
  | none =>
    simp only [directoryVouched, bind_eq_ok, ensure_eq_ok, anyhow_eq_ok, exists_const,
      exists_and_right, exists_ok_unit, hset, FreshSet.currentFor_singleton hv hcurrent, hvouching]
    exact ⟨hlisted, hverify, hverify, hfresh, ⟨_, rfl⟩, hany⟩
  | some h =>
    obtain rfl := hheld h rfl
    have hcheck : (⟨h, [v.fresh]⟩ : HostProof).check root h dir now = .ok .same := by
      simp [HostProof.check, hverify, hfresh, hvouching, MAX_FRESH_SET]
    simp only [directoryVouched, bind_eq_ok, ensure_eq_ok, anyhow_eq_ok, exists_const,
      exists_and_right, exists_ok_unit, hset, FreshSet.currentFor_singleton hv hcurrent]
    exact ⟨hlisted, hverify, ⟨_, hcheck⟩, hany⟩

/-- So is one that shows that word itself. -/
theorem directoryVouched_singleton {root : NodeId} {head : SignedPolicyHead} {v : VerifiedFresh}
    {dir : NodeId} {now : Int64} {held : Option SignedPolicyHead} (hverify : head.verify root = .ok ())
    (hfresh : head.checkFresh now = .ok ()) (hdir : dir ∈ head.head.directories)
    (hword : v.fresh.vouches head dir now = .ok ()) (hheld : ∀ h, held = some h → h = head) :
    directoryVouched ⟨head, [v.fresh]⟩ ⟨[v]⟩ root held [] dir now = .ok () :=
  directoryVouched_of_learn FreshSet.learn_singleton hverify hfresh hdir hword hheld

/-- The pool once a caller that holds no word, or this one, is shown it, with no view or one under the
same head. -/
theorem pooled_singleton {root : NodeId} {head : SignedPolicyHead} {word : Fresh} {now : Int64}
    {held : Option SignedPolicyHead} {pool : FreshSet} (hverify : head.verify root = .ok ())
    (hfresh : head.checkFresh now = .ok ()) (hword : word.verify head = .ok ())
    (hheld : ∀ h, held = some h → h = head)
    (hpool : pool = FreshSet.empty ∨ pool = ⟨[⟨word, head, hword⟩]⟩) :
    pooled root held pool ⟨head, [word]⟩ now = ⟨[⟨word, head, hword⟩]⟩ := by
  have hw : word.toVerified head = .ok ⟨word, head, hword⟩ := Fresh.toVerified_eq_ok.mpr ⟨hword, rfl⟩
  have hnewer : held.all (fun h => head.head.version ≥ h.head.version) = true := by
    cases held with
    | none => rfl
    | some h => simp [hheld h rfl]
  have hwords : poolWords ⟨head, [word]⟩ root held now = [⟨word, head, hword⟩] := by
    simp only [poolWords, hverify, hfresh, hnewer]
    simp [isOk, MAX_FRESH_SET, hw, Except.toOption]
  rw [pooled, hwords, List.foldl_cons, List.foldl_nil]
  rcases hpool with rfl | rfl
  · exact FreshSet.insert_empty _ now
  · exact FreshSet.insert_singleton _ _ now rfl

/-- What a view that is taken is kept with, where the words the caller has are its own. -/
theorem fresh_taken {root : NodeId} {view : View} (hv : view.verify root = .ok ()) {word : Fresh}
    (hw : word.verify view.head = .ok ()) {held : Option (HeldView root)} (now : Int64)
    (hheld : ∀ old, held = some old →
      old.fresh = FreshSet.empty ∨ old.fresh = ⟨[⟨word, view.head, hw⟩]⟩) :
    (((HeldView.fetched view hv (some word) now).keeping held now).learnAll
      (⟨[⟨word, view.head, hw⟩]⟩ : FreshSet).iter now).fresh = ⟨[⟨word, view.head, hw⟩]⟩ := by
  have hfetched : (HeldView.fetched view hv (some word) now).fresh = ⟨[⟨word, view.head, hw⟩]⟩ := by
    have hverified : word.toVerified view.head = .ok ⟨word, view.head, hw⟩ :=
      Fresh.toVerified_eq_ok.mpr ⟨hw, rfl⟩
    simp [HeldView.fetched, FreshSet.learn, hverified, FreshSet.insert_empty]
  have hkeeping : ((HeldView.fetched view hv (some word) now).keeping held now).fresh =
      ⟨[⟨word, view.head, hw⟩]⟩ := by
    cases held with
    | none => exact hfetched
    | some old =>
      show (HeldView.fetched view hv (some word) now).fresh.learn ([old].flatMap (·.fresh.iter))
        view.head now = _
      rw [hfetched, List.flatMap_singleton]
      rcases hheld old rfl with h | h
      · rw [h]
        rfl
      · rw [h]
        exact FreshSet.learn_singleton
  show ((HeldView.fetched view hv (some word) now).keeping held now).fresh.learn [word] view.head now = _
  rw [hkeeping]
  exact FreshSet.learn_singleton

/-- A directory that shows a view's head by a word, to a caller that holds no view, or one under the
same head and no other word: it is given the view, and holds that word. -/
theorem exists_fetch_of_word {root : NodeId} {view : View} (hv : view.verify root = .ok ())
    {dir : NodeId} (hdir : dir ∈ view.head.head.directories) {word : Fresh} {now : Int64}
    (hword : word.vouches view.head dir now = .ok ()) (hfresh : view.head.checkFresh now = .ok ())
    (hw : word.verify view.head = .ok ()) (held : Option (HeldView root))
    (hheld : ∀ old, held = some old → old.view.head = view.head ∧
      (old.fresh = FreshSet.empty ∨ old.fresh = ⟨[⟨word, view.head, hw⟩]⟩)) :
    ∃ h : HeldView root, fetch [] held now
        [⟨.opened ⟨dir, ⟨view.head, [word]⟩, .ok (.view view word)⟩, fun _ => now⟩] now = .ok h ∧
      h.view = view ∧ h.seen = 0 ∧ h.fresh = ⟨[⟨word, view.head, hw⟩]⟩ := by
  have hhead : view.head.verify root = .ok () := (View.verify_eq_ok.mp hv).1
  have hsame : ∀ head, held.map (·.view.head) = some head → head = view.head := fun head hsome => by
    obtain ⟨old, hold, rfl⟩ := Option.map_eq_some_iff.mp hsome
    exact (hheld old hold).1
  have hwords : (held.map (·.fresh)).getD FreshSet.empty = FreshSet.empty ∨
      (held.map (·.fresh)).getD FreshSet.empty = ⟨[⟨word, view.head, hw⟩]⟩ := by
    cases held with
    | none => exact .inl rfl
    | some old => exact (hheld old rfl).2
  have hpool := pooled_singleton hhead hfresh hw hsame hwords
  have htake := @takeView_of_verify _ root held now view word hv hw
    (fun old hold => by rw [HeldView.version, (hheld old hold).1]) ⟨[⟨word, view.head, hw⟩]⟩
  have hvouched : directoryVouched ⟨view.head, [word]⟩ ⟨[⟨word, view.head, hw⟩]⟩ root
      (held.map (·.view.head)) [] dir now = .ok () :=
    directoryVouched_singleton (v := ⟨word, view.head, hw⟩) hhead hfresh hdir hword hsame
  refine ⟨_, ?_, rfl, rfl, fresh_taken hv hw now fun old hold => (hheld old hold).2⟩
  simp only [fetch, askProven, askTurns, hpool, List.nil_append, askWaiting, hvouched, Opened.ask, htake]

/-- Any view under a head that can be shown is taken from a directory that shows the head, by a
caller that holds none, or one under the same head and no word. -/
theorem exists_fetch_again {root : NodeId} {view : View} (hv : view.verify root = .ok ())
    (hshown : Vouchable view.head) (held : Option (HeldView root))
    (hheld : ∀ old, held = some old → old.view.head = view.head ∧ old.fresh = FreshSet.empty) :
    ∃ (now : Int64) (turns : List Turn) (h : HeldView root),
      fetch [] held now turns now = .ok h ∧ h.view = view ∧ h.seen = 0 := by
  obtain ⟨dir, hdir, word, now, hword, hfresh⟩ := hshown
  obtain ⟨h, hfetch, hview, hseen, -⟩ := exists_fetch_of_word hv hdir hword hfresh
    (Fresh.vouches_eq_ok.mp hword).1 held fun old hold => (hheld old hold).imp_right .inl
  exact ⟨now, _, h, hfetch, hview, hseen⟩

/-- A caller that holds none can take it twice. -/
theorem exists_fetch_twice {root : NodeId} {view : View} (hv : view.verify root = .ok ())
    (hshown : Vouchable view.head) :
    ∃ (now : Int64) (turns : List Turn) (h h' : HeldView root), fetch [] none now turns now = .ok h ∧
      fetch [] (some h) now turns now = .ok h' ∧ h.view = view ∧ h'.view = view := by
  obtain ⟨dir, hdir, word, now, hword, hfresh⟩ := hshown
  have hw : word.verify view.head = .ok () := (Fresh.vouches_eq_ok.mp hword).1
  obtain ⟨h, hfetch, hview, -, hkept⟩ := exists_fetch_of_word hv hdir hword hfresh hw none nofun
  have hheld : ∀ old, some h = some old → old.view.head = view.head ∧
      (old.fresh = FreshSet.empty ∨ old.fresh = ⟨[⟨word, view.head, hw⟩]⟩) := fun old hold => by
    obtain rfl := Option.some.inj hold
    exact ⟨congrArg View.head hview, .inr hkept⟩
  obtain ⟨h', hagain, hview', -⟩ := exists_fetch_of_word hv hdir hword hfresh hw (some h) hheld
  exact ⟨now, _, h, h', hfetch, hagain, hview, hview'⟩

/-- Any view under a head that can be shown is taken by a caller that holds none, from a directory
that shows the head. -/
theorem exists_fetch {root : NodeId} {view : View} (hv : view.verify root = .ok ())
    (hshown : Vouchable view.head) :
    ∃ (now : Int64) (turns : List Turn) (h : HeldView root),
      fetch [] none now turns now = .ok h ∧ h.view = view := by
  obtain ⟨now, turns, h, hfetch, hview, -⟩ := exists_fetch_again hv hshown none nofun
  exact ⟨now, turns, h, hfetch, hview⟩

/-- A directory that shows a head that can be shown, and refuses the caller admission, is heard by
one that holds no view, or one under the same head and no word. -/
theorem exists_fetch_refused {root : NodeId} {head : SignedPolicyHead}
    (hhead : head.verify root = .ok ()) (hshown : Vouchable head) (held : Option (HeldView root))
    (hheld : ∀ old, held = some old → old.view.head = head ∧ old.fresh = FreshSet.empty) :
    ∃ (now : Int64) (turns : List Turn) (why : String), fetch [] held now turns now =
      .error ["a directory said this node is not admitted to the network", why] := by
  obtain ⟨dir, hdir, word, now, hword, hfresh⟩ := hshown
  have hwv : word.verify head = .ok () := (Fresh.vouches_eq_ok.mp hword).1
  have hsame : ∀ h, held.map (·.view.head) = some h → h = head := fun h hsome => by
    obtain ⟨old, hold, rfl⟩ := Option.map_eq_some_iff.mp hsome
    exact (hheld old hold).1
  have hempty : (held.map (·.fresh)).getD FreshSet.empty = FreshSet.empty := by
    cases held with
    | none => rfl
    | some old => exact (hheld old rfl).2
  let w : VerifiedFresh := ⟨word, head, hwv⟩
  have hpool : pooled root (held.map (·.view.head)) FreshSet.empty ⟨head, [word]⟩ now = ⟨[w]⟩ :=
    pooled_singleton hhead hfresh hwv hsame (.inl rfl)
  have hvouched : directoryVouched ⟨head, [word]⟩ ⟨[w]⟩ root (held.map (·.view.head)) [] dir now =
      .ok () := directoryVouched_singleton (v := w) hhead hfresh hdir hword hsame
  let turn : Turn := ⟨.opened ⟨dir, ⟨head, [word]⟩, .ok (.denied NOT_ADMITTED)⟩, fun _ => now⟩
  have hask : ∃ out, askProven [] held (takeView held now) [turn] now = .error out ∧
      out.notAdmitted = true := by
    simp [turn, askProven, askTurns, hempty, hpool, askWaiting, hvouched, Opened.ask,
      Unanswered.failed]
  obtain ⟨out, hask, hadmitted⟩ := hask
  refine ⟨now, [turn], "no directory gave this node its view (" ++
    String.intercalate "; " out.failures ++ ")", ?_⟩
  rw [fetch, hask]
  exact if_pos hadmitted

end Wires
