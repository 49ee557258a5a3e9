import Wires.Proof.StoredView

/-!
# The newest version a caller has recorded

A stored view records two versions: its own, and the newest a host was seen to
hold. The larger of the two is its floor. The notes never lower it
(`floor_le_noting`), and a fetch takes no view older than the one it started
from (`offered_of_fetch`); but what a fetch stores has no mark, or the mark of
another copy. `Keeps` is when that loses nothing; in every run of operations
that all do, the floor never goes down and no view older than it is accepted
(`floor_monotone`).
-/

namespace Wires

section

variable [Crypto] {root : NodeId} (path : String) (root)

/-- The version of the stored view (0: none). -/
def storedView (file : ViewFile) : StateVersion :=
  match readView path root file with
  | .ok (some held) => held.version
  | _ => 0

/-- The highest version the stored view records, as held or as seen. -/
def floor (file : ViewFile) : StateVersion :=
  match readView path root file with
  | .ok (some held) => max held.version held.seen
  | _ => 0

variable {path} {root} {file : ViewFile} {h : HeldView root}

theorem floor_stored : floor path root (.stored h.stored) = max h.version h.seen := by
  rw [floor, readView_stored]
  rfl

theorem floor_of_readView {held : HeldView root} (hread : readView path root file = .ok (some held)) :
    floor path root file = max held.version held.seen := by
  rw [floor, hread]

/-- A note that lowers neither version leaves the floor where it is, or higher. -/
theorem floor_le_noting {note : HeldView root → Option (HeldView root)} {disk : Disk}
    (hnote : ∀ held noted, note held = some noted →
      max held.version held.seen ≤ max noted.version noted.seen) :
    floor path root file ≤ floor path root ((noting path root note disk).alone file).1 := by
  unfold noting
  rw [Chore.alone_reads]
  split
  · rename_i held hread
    have hstored := readView_opened hread
    split
    · rename_i noted hnoted
      rcases (alone_writing disk.written fun _ => ()).2 with ⟨hfile, -⟩ | ⟨hfile, -⟩
      · rw [hfile]
      · rw [hfile, floor_stored, floor_of_readView hstored]
        exact hnote held noted hnoted
    · exact le_rfl
  · exact le_rfl

/-! ## Fetches -/

/-- An operation that found `file` accepts no view older than `least`, and stores what it accepts, or
nothing. -/
structure Leaves (least : StateVersion) (file after : ViewFile) (accepted : Option (HeldView root)) :
    Prop where
  accepts : ∀ h, accepted = some h → least ≤ h.version
  stores : after = file ∨ ∃ h, accepted = some h ∧ after = .stored h.stored

variable {least : StateVersion} {after : ViewFile} {accepted : Option (HeldView root)}

/-- Where nothing older than the floor is accepted, the floor stays. -/
theorem Leaves.floor_le (hl : Leaves (floor path root file) file after accepted) :
    floor path root file ≤ floor path root after := by
  rcases hl.stores with rfl | ⟨h, haccepted, rfl⟩
  · exact le_rfl
  · rw [floor_stored]
    exact (hl.accepts h haccepted).trans (le_max_left _ _)

theorem Leaves.mono {least' : StateVersion} (hl : Leaves least file after accepted)
    (hle : least' ≤ least) : Leaves least' file after accepted :=
  ⟨fun h haccepted => hle.trans (hl.accepts h haccepted), hl.stores⟩

theorem leaves_none : Leaves least file file (none : Option (HeldView root)) := ⟨nofun, .inl rfl⟩

/-- A view that is written, or not. -/
theorem leaves_writing (written : Except Anyhow Unit) (hle : least ≤ h.version) :
    Leaves least file ((writing h written fun w => w.map fun _ => h).alone file).1
      ((writing h written fun w => w.map fun _ => h).alone file).2.toOption := by
  cases written with
  | error e => exact leaves_none
  | ok u => exact ⟨fun h' heq => Option.some.inj heq ▸ hle, .inr ⟨h, rfl, rfl⟩⟩

/-- What is fetched is no older than `least`: the fetch starts from such a view, or every view that
a directory answers with is one. -/
def Covered (least start : StateVersion) (turns : List Turn) : Prop :=
  least ≤ start ∨ ∀ view ∈ offered turns, least ≤ view.head.head.version

theorem Covered.fetch {held : Option (HeldView root)} {known : List NodeId} {now last : Int64}
    {turns : List Turn} (hc : Covered least ((held.map (·.version)).getD 0) turns)
    (hf : fetch known held now turns last = .ok h) : least ≤ h.version := by
  obtain ⟨hmem, hle⟩ := offered_of_fetch hf
  rcases hc with hstart | hall
  · cases held with
    | none => exact hstart.trans UInt64.zero_le
    | some old => exact hstart.trans (hle old rfl)
  · exact hall h.view hmem

variable {policyPath : String} {me : NodeId} {o : Outside}

variable (path root policyPath me) in
/-- A refresh brings a view no older than `least`: it cuts it from such a policy, or starts from such
a view, or some directory is asked and every view that one answers with is one. -/
def Brings (least : StateVersion) (file : ViewFile) (o : Outside) : Prop :=
  match read policyPath root o.policy with
  | .ok (some whole) => least ≤ whole.version
  | _ => least ≤ storedView path root file ∨
    Home.directories ⟨o.policy, file.opened (o.disk.faults 1), o.joined⟩ path root me ≠ [] ∧
      ∀ view ∈ offered o.turns, least ≤ view.head.head.version

theorem Brings.leaves (hb : Brings path root policyPath me least file o) :
    Leaves least file ((refreshing path root false policyPath me o).alone file).1
      ((refreshing path root false policyPath me o).alone file).2.toOption := by
  unfold Brings at hb
  cases hpolicy : read policyPath root o.policy with
  | error e =>
    unfold refreshing
    rw [hpolicy]
    exact leaves_none
  | ok whole =>
    rw [hpolicy] at hb
    cases whole with
    | some whole =>
      rw [refreshing_whole hpolicy]
      refine leaves_writing _ ?_
      rw [HeldView.version, HeldView.fetched, viewFor_head]
      exact hb
    | none =>
      unfold refreshing
      rw [hpolicy]
      simp only [Bool.false_eq_true, if_false, Chore.alone_reads]
      cases hread : readView path root (file.opened (o.disk.faults 0)) with
      | error e => exact leaves_none
      | ok held =>
        have hstart : storedView path root file = (held.map (·.version)).getD 0 := by
          rw [storedView, readView_opened hread]
          cases held with
          | none => rfl
          | some old => rfl
        rw [hstart] at hb
        simp only [refreshingFrom, Chore.alone_reads]
        split
        · rename_i hnone
          refine ⟨fun h hh => ?_, .inl rfl⟩
          cases held with
          | none => cases hh
          | some old =>
            obtain rfl : old = h := Option.some.inj hh
            rcases hb with hle | ⟨hdirs, -⟩
            · exact hle
            · exact absurd hnone hdirs
        · have hc : Covered least ((held.map (·.version)).getD 0) o.turns :=
            hb.imp_right And.right
          cases hfetch : fetch o.joined held o.now o.turns o.last with
          | error e => exact leaves_none
          | ok fetched => exact leaves_writing _ (hc.fetch hfetch)

variable (file) in
theorem Covered.leaves_polling {held : Option (HeldView root)} (persist : Bool)
    (hc : Covered least ((held.map (·.version)).getD 0) o.turns) :
    Leaves least file ((polling held persist o).alone file).1
      ((polling held persist o).alone file).2 := by
  unfold polling
  cases hfetch : Wires.fetch o.joined held o.now o.turns o.last with
  | error e => exact leaves_none
  | ok next =>
    have hle := hc.fetch hfetch
    cases persist with
    | false => exact ⟨fun h heq => Option.some.inj heq ▸ hle, .inl rfl⟩
    | true =>
      simp only [if_true, writing]
      cases o.disk.written with
      | error e => exact ⟨fun h heq => Option.some.inj heq ▸ hle, .inl rfl⟩
      | ok u => exact ⟨fun h heq => Option.some.inj heq ▸ hle, .inr ⟨_, rfl, rfl⟩⟩

/-! ## Notes, and what `resolve` writes -/

theorem floor_le_noteSeen {version : StateVersion} {disk : Disk} :
    floor path root file ≤ floor path root ((noteSeen path root version disk).alone file).1 := by
  refine floor_le_noting fun held noted hnoted => ?_
  split_ifs at hnoted with hnewer
  obtain rfl := Option.some.inj hnoted
  exact max_le_max le_rfl hnewer.1.le

theorem floor_le_noteFresh {fresh : Fresh} {now : Int64} {disk : Disk} :
    floor path root file ≤ floor path root ((noteFresh path root fresh now disk).alone file).1 := by
  refine floor_le_noting fun held noted hnoted => ?_
  split at hnoted
  · cases hnoted
  · dsimp only at hnoted
    split_ifs at hnoted
    obtain rfl := Option.some.inj hnoted
    exact le_rfl

theorem floor_le_noteRefused {disk : Disk} :
    floor path root file ≤ floor path root ((noteRefused path root disk).alone file).1 := by
  refine floor_le_noting fun held noted hnoted => ?_
  obtain rfl := Option.some.inj hnoted
  exact le_rfl

theorem floor_le_resolving {service : ServiceName} :
    floor path root file ≤ floor path root ((resolving path root me service o).alone file).1 := by
  unfold resolving
  rw [Chore.alone_reads]
  dsimp only
  split
  · exact le_rfl
  · rw [Chore.alone_reads]
    split
    · exact le_rfl
    · rw [Chore.alone_map]
      exact floor_le_noteSeen

/-! ## Runs -/

section

variable {κ : Type} [DecidableEq κ] {s t : Caller root κ} {op : CallerOp root κ}
  {ops : List (CallerOp root κ)} {k : κ} {v w : Vouching root}

variable (policyPath path me) in
/-- What an operation is to be for the floor to last: what it fetches is no older than the floor, and
than the view of the `Vouching` that it is for. -/
def Keeps (s : Caller root κ) : CallerOp root κ → Prop
  | .refresh o => Brings path root policyPath me (floor path root s.file) s.file o
  | .round k _ o =>
    Covered (floor path root s.file) (((s.polled k).map (·.version)).getD 0) o.turns
  | .refreshTo k _ _ o => ∀ v, s.vouching k = some v →
    Brings path root policyPath me (max (floor path root s.file) v.version) s.file o
  | _ => True

omit [DecidableEq κ] in
theorem keeps_whole {whole : Held root} (hpolicy : read policyPath root o.policy = .ok (some whole))
    (hle : floor path root s.file ≤ whole.version) : Keeps path policyPath me s (.refresh o) := by
  simp only [Keeps, Brings, hpolicy]
  exact hle

/-- What an operation that keeps the floor does. -/
structure Kept (s : Caller root κ) (op : CallerOp root κ) (t : Caller root κ)
    (accepted : Option (HeldView root)) (path : String) : Prop where
  floor_le : floor path root s.file ≤ floor path root t.file
  accepts : ∀ h, accepted = some h → floor path root s.file ≤ h.version
  vouching : ∀ k v, s.vouching k = some v → (∀ w, op ≠ .vouches k w) →
    ∃ w, t.vouching k = some w ∧ v.version ≤ w.version

omit [DecidableEq κ] in
theorem kept_of_file {accepted : Option (HeldView root)} {after : ViewFile}
    (hfloor : floor path root s.file ≤ floor path root after)
    (haccepts : ∀ h, accepted = some h → floor path root s.file ≤ h.version) :
    Kept s op { s with file := after } accepted path :=
  ⟨hfloor, haccepts, fun _ v hv _ => ⟨v, hv, le_rfl⟩⟩

/-- What a refresher is asked for, as `refreshTo` has it. -/
theorem Brings.refreshed (hb : Brings path root policyPath me least file o) (asks : Bool) :
    ∃ (after : ViewFile) (refreshed : Refreshed root),
      (if asks = true then
        (((refreshing path root false policyPath me o).alone file).1,
          Refreshed.answered ((refreshing path root false policyPath me o).alone file).2)
      else (file, .timedOut)) = (after, refreshed) ∧
      Leaves least file after (match refreshed with
        | .answered result => result.toOption
        | .timedOut => none) := by
  cases asks with
  | false => exact ⟨_, _, rfl, leaves_none⟩
  | true => exact ⟨_, _, rfl, hb.leaves⟩

/-- What the refresher brings is taken, whatever it is. -/
theorem refreshTo_cases (v : Vouching root) (wanted : StateVersion) (refreshed : Refreshed root) :
    (∃ e, v.refreshTo wanted refreshed = .error e) ∨ ∃ held, refreshed = .answered (.ok held) ∧
      v.refreshTo wanted refreshed = .ok { v with held } := by
  unfold Vouching.refreshTo
  split
  · cases refreshed with
    | timedOut => exact .inl ⟨_, rfl⟩
    | answered result =>
      cases result with
      | error e => exact .inl ⟨_, rfl⟩
      | ok held => exact .inr ⟨held, rfl, rfl⟩
  · exact .inl ⟨_, rfl⟩

open Caller in
theorem Keeps.kept (hkeeps : Keeps path policyPath me s op) :
    Kept s op (s.does policyPath path me op).1 (s.does policyPath path me op).2 path := by
  cases op with
  | refresh o =>
    have hl := Brings.leaves hkeeps
    exact kept_of_file hl.floor_le hl.accepts
  | resolve service o => exact kept_of_file floor_le_resolving nofun
  | noteSeen version disk => exact kept_of_file floor_le_noteSeen nofun
  | noteFresh fresh now disk => exact kept_of_file floor_le_noteFresh nofun
  | noteRefused disk => exact kept_of_file floor_le_noteRefused nofun
  | polls k initial => exact ⟨le_rfl, nofun, fun _ v hv _ => ⟨v, hv, le_rfl⟩⟩
  | round k persist o =>
    have hl := Covered.leaves_polling s.file persist hkeeps
    exact ⟨hl.floor_le, hl.accepts, fun _ v hv _ => ⟨v, hv, le_rfl⟩⟩
  | vouches k w =>
    refine ⟨le_rfl, nofun, fun j v hv hne => ⟨v, ?_, le_rfl⟩⟩
    have hj : j ≠ k := by
      rintro rfl
      exact hne w rfl
    exact (Function.update_of_ne hj _ _).trans hv
  | refreshTo k wanted timedOut o =>
    cases hk : s.vouching k with
    | none =>
      simp only [does, hk]
      exact ⟨le_rfl, nofun, fun _ v hv _ => ⟨v, hv, le_rfl⟩⟩
    | some v =>
      simp only [does, hk]
      obtain ⟨after, refreshed, hafter, hl⟩ :=
        Brings.refreshed (hkeeps v hk) (v.refresher && !timedOut)
      rw [hafter]
      have hfloor := (hl.mono (le_max_left _ _)).floor_le
      rcases refreshTo_cases v wanted refreshed with ⟨e, herror⟩ | ⟨held, rfl, hok⟩
      · simp only [herror]
        exact kept_of_file hfloor nofun
      · have hle := hl.accepts held rfl
        simp only [hok]
        refine ⟨hfloor, fun h heq => ?_, fun j u hu _ => ?_⟩
        · obtain rfl := Option.some.inj heq
          exact (le_max_left _ _).trans hle
        · by_cases hj : j = k
          · subst hj
            obtain rfl := Option.some.inj (hk.symm.trans hu)
            exact ⟨_, Function.update_self .., (le_max_right _ _).trans hle⟩
          · exact ⟨u, (Function.update_of_ne hj _ _).trans hu, le_rfl⟩

variable (policyPath path me) in
/-- **The floor never goes down.** In every run of refreshes, resolves, polls, `Vouching`s that
refresh, and notes on one keystore, one at a time, each of which keeps the floor: the highest version
that the stored view records never goes down, nor does that of the view that a `Vouching` holds; and no
view is accepted that is older than a version recorded before. -/
theorem floor_monotone (s : Caller root κ) (ops : List (CallerOp root κ))
    (hkeeps : ∀ before op after, ops = before ++ op :: after →
      Keeps path policyPath me (s.doesAll policyPath path me before) op) :
    floor path root s.file ≤ floor path root (s.doesAll policyPath path me ops).file ∧
      (∀ before op after h, ops = before ++ op :: after →
        ((s.doesAll policyPath path me before).does policyPath path me op).2 = some h →
        floor path root s.file ≤ h.version) ∧
      ∀ k v, s.vouching k = some v → (∀ w, .vouches k w ∉ ops) →
        ∃ w, (s.doesAll policyPath path me ops).vouching k = some w ∧ v.version ≤ w.version := by
  induction ops generalizing s with
  | nil => exact ⟨le_rfl, by simp, fun k v hv _ => ⟨v, hv, le_rfl⟩⟩
  | cons op ops ih =>
    have hk : Kept s op (s.does policyPath path me op).1 (s.does policyPath path me op).2 path :=
      (hkeeps [] op ops rfl).kept
    obtain ⟨hfloor, haccepts, hvouching⟩ := ih (s.does policyPath path me op).1
      fun before op' after heq => hkeeps (op :: before) op' after (by rw [heq, List.cons_append])
    refine ⟨hk.floor_le.trans hfloor, fun before op' after h heq hh => ?_, fun k v hv hmade => ?_⟩
    · cases before with
      | nil =>
        obtain ⟨rfl, rfl⟩ := List.cons.inj heq
        exact hk.accepts h hh
      | cons first before =>
        obtain ⟨rfl, rfl⟩ := List.cons.inj heq
        exact hk.floor_le.trans (haccepts before op' after h rfl hh)
    · obtain ⟨u, hu, hle⟩ := hk.vouching k v hv fun w heq => hmade w (heq ▸ List.mem_cons_self)
      obtain ⟨w, hw, hle'⟩ := hvouching k u hu fun w hmem => hmade w (List.mem_cons_of_mem _ hmem)
      exact ⟨w, hw, hle.trans hle'⟩

end

end

/-! ## A mark that is lost -/

section Sample

attribute [local instance] Crypto.plain

/-- A keystore with a view and nothing in memory. -/
def callerOf (h : HeldView (nodeId sampleRoot)) : Caller (nodeId sampleRoot) Unit :=
  ⟨.stored h.stored, fun _ => none, fun _ => none⟩

theorem floor_monotone_sample :
    floor "view.json" (nodeId sampleRoot) (callerOf viewFirst).file ≤
      floor "view.json" (nodeId sampleRoot)
        ((callerOf viewFirst).doesAll "policy.json" "view.json" (sampleNode 2)
          [.refresh sampleOutside]).file := by
  refine (floor_monotone "view.json" "policy.json" (sampleNode 2) (callerOf viewFirst)
    [.refresh sampleOutside] fun before op after heq => ?_).1
  obtain ⟨rfl, rfl, -⟩ : before = [] ∧ op = .refresh sampleOutside ∧ after = [] := by
    cases before with
    | nil => exact ⟨rfl, (List.cons.inj heq).1.symm, (List.cons.inj heq).2.symm⟩
    | cons first before => simp at heq
  have hle : floor "view.json" (nodeId sampleRoot) (callerOf viewFirst).file ≤
      (versionHeld 2 (sampleNode 2) (by decide)).version := by
    rw [callerOf, floor_stored]
    decide
  have hpolicy : read "policy.json" (nodeId sampleRoot) sampleOutside.policy =
      .ok (some (versionHeld 2 (sampleNode 2) (by decide))) := read_versionOffer (by decide)
  -- what the node meets is not to be computed
  generalize sampleOutside = o at hpolicy ⊢
  exact keeps_whole hpolicy hle

/-- The view of version 1, whose caller was shown version 5 by a host. -/
def viewMarked : HeldView (nodeId sampleRoot) := { viewFirst with seen := 5 }

/-- The directory's word for version 1. -/
theorem vouchable_viewMarked : Vouchable viewMarked.view.head := by
  have hsign : ∃ f, Fresh.sign (3 : UInt8) viewMarked.view.head 0 100 = .ok f := ⟨_, rfl⟩
  obtain ⟨f, hf⟩ := hsign
  exact @vouchable_of_sign _ _ _ _ _ 5 _ hf (by decide) (by decide) (by decide)

/-- A refresh that brings version 1 again forgets that a host showed version 5. -/
theorem mark_lost : ∃ o : Outside,
    floor "view.json" (nodeId sampleRoot) ((callerOf viewMarked).doesAll "policy.json" "view.json"
      (sampleNode 2) [.refresh o]).file <
        floor "view.json" (nodeId sampleRoot) (callerOf viewMarked).file := by
  have hread := readView_stored "view.json" viewMarked
  obtain ⟨now, turns, h, hfetch, hview, hseen⟩ := exists_fetch_again viewMarked.verified
    vouchable_viewMarked (some { viewMarked with
      fresh := FreshSet.fromUnverified viewMarked.fresh.iter viewMarked.view.head })
      fun old hold => by
        obtain rfl := Option.some.inj hold
        exact ⟨rfl, rfl⟩
  refine ⟨⟨.absent, [], none, now, turns, now, soundDisk⟩, ?_⟩
  have hafter : ((callerOf viewMarked).doesAll "policy.json" "view.json" (sampleNode 2)
      [.refresh ⟨.absent, [], none, now, turns, now, soundDisk⟩]).file = .stored h.stored := by
    have hdirs : Home.directories ⟨.absent, .stored viewMarked.stored, []⟩ "view.json"
        (nodeId sampleRoot) (sampleNode 2) ≠ [] := by
      simp only [Home.directories, hread, List.foldl_nil]
      decide
    have hnone : read "policy.json" (nodeId sampleRoot) .absent = .ok none := rfl
    have hopened : (ViewFile.stored viewMarked.stored).opened none = .stored viewMarked.stored := rfl
    simp only [Caller.doesAll, List.foldl_cons, List.foldl_nil, Caller.does, callerOf, refreshing,
      refreshingFrom, hnone, Bool.false_eq_true, if_false, Chore.alone_reads, soundDisk, hopened, hread,
      if_neg hdirs, hfetch, writing]
    rfl
  have hmarked : floor "view.json" (nodeId sampleRoot) (callerOf viewMarked).file =
      max viewMarked.version viewMarked.seen := floor_stored
  have hversion : h.version = viewMarked.version := congrArg (·.head.head.version) hview
  rw [hafter, floor_stored, hmarked, hseen, hversion]
  decide

end Sample

end Wires
