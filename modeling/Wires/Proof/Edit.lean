import Wires.Impl.Edit
import Wires.Proof.Deciders

/-!
# Edits at once

Every edit signs over the policy that it read and is adopted only over an older
one, so it replaces just the version it was made from: what a run changes of
the stored policy is read off it (`Admin.changes`), and `Admin.Fate` says what
of it is each command's. The guard against dropping the last directory reads
the policy before the edit does, so it holds of the runs in which no edit slips
between (`edits_linearize`).
-/

namespace Wires

deriving instance DecidableEq for PolicyFile

/-! ## Times -/

theorem i64_le_max (a b : Int64) : a ≤ max a b ∧ b ≤ max a b := by
  have hmax : max a b = if a ≤ b then b else a := rfl
  rw [hmax]
  split
  · rename_i hle
    exact ⟨hle, Int64.le_refl b⟩
  · rename_i hle
    exact ⟨Int64.le_refl a, Int64.le_of_lt (Int64.not_le.mp hle)⟩

theorem Ttl.le_notAfter (t : Ttl) (now : Int64) : now ≤ t.notAfter now := by
  have hpos : (0 : Int) < t.secs.toInt := Int64.lt_iff_toInt_lt.mp t.pos
  have hmax := Int64.toInt_lt now
  rw [Int64.le_iff_toInt_le, Ttl.notAfter, toInt_satAdd]
  omega

/-! ## What a command changes -/

namespace PolicyEdit

variable {edit : PolicyEdit} {p q : Policy}

/-- What no command changes. -/
structure Keeps (p q : Policy) : Prop where
  fabric : q.fabric = p.fabric
  version : q.version = p.version
  parsed : p.Parsed → q.Parsed

theorem Keeps.of_roles (hfabric : q.fabric = p.fabric) (hversion : q.version = p.version)
    (hroles : ∀ e ∈ q.roles.entries, e ∈ p.roles.entries ∨ ∀ m ∈ e.2, m.Parsed) : Keeps p q where
  fabric := hfabric
  version := hversion
  parsed hp e he := (hroles e he).elim (hp e) id

theorem keeps_of_change (h : edit.change p = .ok q) : Keeps p q := by
  cases edit with
  | roleSet name matchers parsed =>
    obtain rfl := Except.ok.inj h
    refine .of_roles rfl rfl fun e he => ?_
    have hget := SortedMap.get?_eq_some_iff.mpr he
    rw [SortedMap.get?_insert] at hget
    split_ifs at hget
    · obtain rfl := Option.some.inj hget
      exact .inr parsed
    · exact .inl (SortedMap.get?_eq_some_iff.mp hget)
  | roleRm name =>
    simp only [change, bind_eq_ok, ensure_eq_ok, pure_eq_ok, exists_const] at h
    obtain ⟨-, rfl⟩ := h
    refine .of_roles rfl rfl fun e he => ?_
    have hget := SortedMap.get?_eq_some_iff.mpr he
    rw [SortedMap.get?_erase] at hget
    split_ifs at hget
    exact .inl (SortedMap.get?_eq_some_iff.mp hget)
  | issuerRm issuer =>
    simp only [change, bind_eq_ok, ensure_eq_ok, exists_const] at h
    obtain ⟨-, h⟩ := h
    split at h
    · cases h
    · obtain rfl := Except.ok.inj h
      exact .of_roles rfl rfl fun e he => .inl he
  | remove who | restore who =>
    cases who with
    | person person | node named =>
      simp only [change, bind_eq_ok, ensure_eq_ok, pure_eq_ok, exists_const] at h
      obtain ⟨-, rfl⟩ := h
      exact .of_roles rfl rfl fun e he => .inl he
  | issuerSet issuer config | settings beatSecs freshSecs =>
    obtain rfl := Except.ok.inj h
    exact .of_roles rfl rfl fun e he => .inl he
  | serviceAdd name edit =>
    simp only [change, bind_eq_ok, ensure_eq_ok, pure_eq_ok, exists_const] at h
    obtain ⟨-, -, -, rfl⟩ := h
    exact .of_roles rfl rfl fun e he => .inl he
  | serviceSet name edit =>
    simp only [change, bind_eq_ok, pure_eq_ok] at h
    obtain ⟨-, -, svc, -, rfl⟩ := h
    exact .of_roles rfl rfl fun e he => .inl he
  | directoryAdd node =>
    simp only [change, bind_eq_ok, ensure_eq_ok, pure_eq_ok, exists_const] at h
    obtain ⟨-, -, rfl⟩ := h
    exact .of_roles rfl rfl fun e he => .inl he
  | serviceRm name | directoryRm node =>
    simp only [change, bind_eq_ok, ensure_eq_ok, pure_eq_ok, exists_const] at h
    obtain ⟨-, rfl⟩ := h
    exact .of_roles rfl rfl fun e he => .inl he

end PolicyEdit

/-! ## Signing the next -/

section

variable [Crypto] {root : NodeIdentity} {edit : PolicyEdit} {ttl : Ttl} {listed : Bool} {now : Int64}
  {h : Held (nodeId root)} {s : SignedPolicy}

/-- The policy `q`, made of `base`, as the version after it. -/
def Policy.following (q base : Policy) (ttl : Ttl) (now : Int64) : Policy :=
  { q with
    version := base.version + 1
    issued := now
    notAfter := max (ttl.notAfter now) base.notAfter }

/-- A policy is another changed by a command and signed at the next version. -/
def EditedBy (edit : PolicyEdit) (ttl : Ttl) (base next : Policy) : Prop :=
  ∃ q now, edit.change base = .ok q ∧ next = q.following base ttl now

/-- What is held validates. -/
theorem Held.validate {root : NodeId} (h : Held root) : h.policy.validate = .ok () := by
  obtain ⟨-, p, hp, -, -, -, -, hvalid⟩ := SignedPolicy.verify_eq_ok.mp h.verified
  obtain rfl := Except.ok.inj (h.typed.symm.trans hp)
  exact hvalid

omit [Crypto] in
theorem fields_of_toPolicy {s : SignedPolicy} {p : Policy} (hp : s.toPolicy = .ok p) :
    p.fabric = s.head.head.fabric ∧ p.version = s.version ∧ p.notAfter = s.head.head.notAfter ∧
      p.directories = s.head.head.directories := by
  obtain ⟨settings, rfl⟩ := ofItems_of_toPolicy hp
  exact ⟨rfl, rfl, rfl, rfl⟩

/-- What a command makes of a held policy is of the root's network. -/
theorem fabric_of_change {q : Policy} (hq : edit.change h.policy = .ok q) :
    nodeId root = (q.following h.policy ttl now).fabric := by
  show nodeId root = q.fabric
  rw [(PolicyEdit.keeps_of_change hq).fabric, (fields_of_toPolicy h.typed).1,
    fabric_of_verify h.verified]

/-- What `sign_next` signs. -/
theorem signNext_eq_ok : signNext root ttl (edit.guarded listed) (some h) now = .ok s ↔
    ∃ q, edit.change h.policy = .ok q ∧ ¬(listed = true ∧ q.directories = []) ∧
      (q.following h.policy ttl now).validate = .ok () ∧
      s = (q.following h.policy ttl now).signed root (some h.signed) := by
  simp only [signNext, nextPolicy, PolicyEdit.guarded, bind_eq_ok, ensure_eq_ok, pure_eq_ok,
    exists_const, context_eq_ok, anyhow_eq_ok, Policy.signAfter, Policy.signWith_eq_ok]
  constructor
  · rintro ⟨_, ⟨_, ⟨q, hq, hlisted, rfl⟩, rfl⟩, -, hvalid, hs⟩
    rw [(PolicyEdit.keeps_of_change hq).version] at hvalid hs
    exact ⟨q, hq, hlisted, hvalid, hs⟩
  · rintro ⟨q, hq, hlisted, hvalid, hs⟩
    refine ⟨_, ⟨q, ⟨q, hq, hlisted, rfl⟩, rfl⟩, @fabric_of_change _ _ _ ttl now h _ hq, ?_, ?_⟩
    · rw [(PolicyEdit.keeps_of_change hq).version]
      exact hvalid
    · rw [(PolicyEdit.keeps_of_change hq).version]
      exact hs

/-- What `sign_next` signs verifies, and is fresh. -/
theorem checkOffered_of_signNext
    (hs : signNext root ttl (edit.guarded listed) (some h) now = .ok s) :
    checkOffered (nodeId root) s now = .ok () := by
  obtain ⟨q, hq, -, hvalid, rfl⟩ := signNext_eq_ok.mp hs
  refine checkOffered_eq_ok.mpr
    ⟨Policy.verify_signed (fabric_of_change hq) hvalid fun prev hprev => ?_, ?_⟩
  · obtain rfl := Option.some.inj hprev
    exact ⟨_, h.verified⟩
  · exact Int64.le_trans (ttl.le_notAfter now) (i64_le_max _ _).1

/-- It is the policy read, changed by the command, at the next version. -/
theorem edited_of_signNext (hs : signNext root ttl (edit.guarded listed) (some h) now = .ok s)
    {next : Held (nodeId root)} (hn : next.signed = s) : EditedBy edit ttl h.policy next.policy ∧
      next.version = h.version + 1 ∧ (listed = true → next.policy.directories ≠ []) := by
  obtain ⟨q, hq, hlisted, -, rfl⟩ := signNext_eq_ok.mp hs
  have htyped := next.typed
  rw [hn, Policy.toPolicy_signed (fabric_of_change hq)] at htyped
  have hpolicy := (Except.ok.inj htyped).symm
  have hversion : h.version = h.policy.version := (fields_of_toPolicy h.typed).2.1.symm
  refine ⟨⟨q, now, hq, hpolicy⟩, ?_, fun hl => ?_⟩
  · rw [hversion, Held.version, ← (fields_of_toPolicy next.typed).2.1, hpolicy]
    rfl
  · rw [hpolicy]
    exact fun hnil => hlisted ⟨hl, hnil⟩

/-- The email patterns of what is stored are results of parsing. -/
theorem parsed_of_read {path : String} {root : NodeId} {file : PolicyFile} {h : Held root}
    (hread : read path root file = .ok (some h)) : h.policy.Parsed := by
  have hsigned : h.signed.Parsed := by
    cases file with
    | absent => cases hread
    | unreadable why => cases hread
    | text cs =>
      simp only [read, bind_eq_ok, orError_eq_ok, context_eq_ok, pure_eq_ok] at hread
      obtain ⟨signed, htext, held, hheld, heq⟩ := hread
      obtain rfl := Option.some.inj heq
      obtain ⟨j, -, hj⟩ := Option.bind_eq_some_iff.mp htext
      rw [Held.verify_eq_ok.mp hheld]
      exact SignedPolicy.parsed_of_ofJson hj
  intro e he m hm
  have hitem : Item.role e.1 e.2 ∈ h.signed.items := by
    have hord := (SignedPolicy.ordered_of_toPolicy h.typed).roles
    obtain ⟨settings, hpolicy⟩ := ofItems_of_toPolicy h.typed
    rw [hpolicy, Policy.ofItems, SortedMap.entries_collect hord] at he
    obtain ⟨i, hi, hrole⟩ := List.mem_filterMap.mp he
    cases i with
    | role k b =>
      obtain rfl : (k, b) = e := Option.some.inj hrole
      exact hi
    | _ => cases hrole
  exact hsigned _ hitem m hm

/-- What is signed can be offered. -/
theorem exists_candidate {path : String} {file : PolicyFile}
    (hread : read path (nodeId root) file = .ok (some h))
    (hs : signNext root ttl (edit.guarded listed) (some h) now = .ok s) :
    ∃ c : Candidate, c.policy = s := by
  obtain ⟨q, hq, -, -, rfl⟩ := signNext_eq_ok.mp hs
  have hparsed : (q.following h.policy ttl now).Parsed :=
    (PolicyEdit.keeps_of_change hq).parsed (parsed_of_read hread)
  exact ⟨⟨_, Policy.parsed_signed hparsed⟩, rfl⟩

end

/-! ## Steps -/

namespace Admin

section

variable [Crypto] {ι : Type} [DecidableEq ι] {path : String} {root : NodeIdentity} {me : NodeId}
  {s t u : Admin (nodeId root) ι} {e : EditEvent ι} {es fs : List (EditEvent ι)} {i j : ι}

/-- The command an event is a step of. -/
def who : EditEvent ι → ι
  | .asks i _ _ | .looks i | .lists i | .signs i _ _ | .answers i | .fails i _ => i
  | .store e => Adopt.who e

/-- What a step can do. -/
inductive Steps (path : String) (root : NodeIdentity) (s : Admin (nodeId root) ι) :
    EditEvent ι → Admin (nodeId root) ι → Prop
  | asks {i edit ttl} (hi : s.stage i = .idle) :
    Steps path root s (.asks i edit ttl) (s.goes i (.looks edit ttl))
  | looks {i edit ttl} (hi : s.stage i = .looks edit ttl) :
    Steps path root s (.looks i) (s.goes i (.lists edit ttl))
  | lists {i edit ttl} {held : Held (nodeId root)} (hi : s.stage i = .lists edit ttl)
    (hread : read path (nodeId root) s.store.file = .ok (some held)) : Steps path root s (.lists i)
      (s.goes i (.signs edit ttl !held.signed.head.head.directories.isEmpty))
  | signs {i edit ttl listed now c} {held : Option (Held (nodeId root))} {store : Adopt ι}
    (hi : s.stage i = .signs edit ttl listed)
    (hread : read path (nodeId root) s.store.file = .ok held)
    (hsign : signNext root ttl (edit.guarded listed) held now = .ok c.policy)
    (hstore : s.store.step path (nodeId root) (.call i c now) = some store) :
    Steps path root s (.signs i now c) { s.goes i (.adopts edit ttl held) with store }
  | store {e : AdoptEvent ι} {store : Adopt ι} (hcall : ∀ i c now, e ≠ .call i c now)
    (hstore : s.store.step path (nodeId root) e = some store) :
    Steps path root s (.store e) { s with store }
  | answers {i edit ttl held c r} (hi : s.stage i = .adopts edit ttl held)
    (hcall : s.store.calls i = some c) (hr : c.stage = .returned r) : Steps path root s (.answers i)
      (s.goes i (.done edit ttl (signedNext (nodeId root) c.candidate.policy r)))
  | stops {e : EditEvent ι} {edit ttl why} (hi : s.stage (who e) = .looks edit ttl ∨
      s.stage (who e) = .lists edit ttl ∨ ∃ listed, s.stage (who e) = .signs edit ttl listed) :
    Steps path root s e (s.goes (who e) (.done edit ttl (.error why)))

omit [DecidableEq ι] in
theorem adminPolicy_eq_ok {file : PolicyFile} {held : Held (nodeId root)} :
    adminPolicy path (nodeId root) file = .ok held ↔
      read path (nodeId root) file = .ok (some held) := by
  simp [adminPolicy]

theorem steps_of_step (h : s.step path root me e = some t) : Steps path root s e t := by
  cases e with
  | asks i edit ttl =>
    simp only [step] at h
    split at h
    · rename_i hi
      obtain rfl := Option.some.inj h
      exact .asks hi
    · cases h
  | looks i =>
    simp only [step] at h
    split at h
    · rename_i edit ttl hi
      split at h
      · obtain rfl := Option.some.inj h
        exact .stops (e := .looks i) (.inl hi)
      · obtain rfl := Option.some.inj h
        exact .looks hi
    · cases h
  | lists i =>
    simp only [step] at h
    split at h
    · rename_i edit ttl hi
      split at h
      · obtain rfl := Option.some.inj h
        exact .stops (e := .lists i) (.inr (.inl hi))
      · rename_i held hheld
        obtain rfl := Option.some.inj h
        exact .lists hi (adminPolicy_eq_ok.mp hheld)
    · cases h
  | signs i now c =>
    simp only [step] at h
    split at h
    · rename_i edit ttl listed hi
      have hstop : s.stage i = .looks edit ttl ∨ s.stage i = .lists edit ttl ∨
          ∃ listed, s.stage i = .signs edit ttl listed := .inr (.inr ⟨listed, hi⟩)
      unfold signing at h
      split at h
      · obtain rfl := Option.some.inj h
        exact .stops (e := .signs i now c) hstop
      · rename_i held hread
        split at h
        · obtain rfl := Option.some.inj h
          exact .stops (e := .signs i now c) hstop
        · rename_i signed hsign
          split_ifs at h with hc
          obtain ⟨store, hstore, heq⟩ := Option.bind_eq_some_iff.mp h
          obtain rfl := Option.some.inj heq
          exact .signs hi hread (hc ▸ hsign) hstore
    · cases h
  | store e =>
    cases e with
    | call i c now => cases h
    | lock i | read i | write i | unlock i | fails i why =>
      obtain ⟨store, hstore, rfl⟩ := Option.map_eq_some_iff.mp h
      exact .store nofun hstore
  | answers i =>
    simp only [step] at h
    split at h
    · rename_i edit ttl held c now r hi hcall
      obtain rfl := Option.some.inj h
      exact .answers (c := ⟨c, now, .returned r⟩) (r := r) hi hcall rfl
    · cases h
  | fails i why =>
    simp only [step] at h
    split at h
    · rename_i edit ttl hi
      obtain rfl := Option.some.inj h
      exact .stops (e := .fails i why) (.inl hi)
    · rename_i edit ttl hi
      obtain rfl := Option.some.inj h
      exact .stops (e := .fails i why) (.inr (.inl hi))
    · rename_i edit ttl listed hi
      obtain rfl := Option.some.inj h
      exact .stops (e := .fails i why) (.inr (.inr ⟨listed, hi⟩))
    · cases h

/-! ## The stored policy -/

/-- A file that takes another's place holds a newer policy, if it is another. -/
def Grows (path : String) (root : NodeId) (file file' : PolicyFile) : Prop :=
  storedVersion path root file ≤ storedVersion path root file' ∧
    (storedVersion path root file' = storedVersion path root file → file' = file)

omit [DecidableEq ι] in
theorem Grows.refl (path : String) (root : NodeId) (file : PolicyFile) : Grows path root file file :=
  ⟨le_rfl, fun _ => rfl⟩

/-- A step of a call of `adopt_if_newer`. -/
theorem grows_of_moves {σ τ : Adopt ι} {e : AdoptEvent ι} (h : σ.Sound path (nodeId root))
    (hm : Adopt.Moves path (nodeId root) σ e τ) : Grows path (nodeId root) σ.file τ.file := by
  rcases Adopt.storedVersion_step h hm with ⟨hfile, -⟩ | ⟨i, c, -, -, -, -, -, hlt⟩
  · rw [hfile]
    exact .refl ..
  · exact ⟨hlt.le, fun heq => absurd heq hlt.ne'⟩

/-- The store is as it was, or one of its calls took a step. -/
theorem store_of_steps (h : Steps path root s e t) : t.store = s.store ∨
    ∃ e', s.store.step path (nodeId root) e' = some t.store := by
  cases h with
  | signs _ _ _ hstore => exact .inr ⟨_, hstore⟩
  | store _ hstore => exact .inr ⟨_, hstore⟩
  | _ => exact .inl rfl

/-- What every state keeps of the store. -/
def Good (path : String) (root : NodeIdentity) (s : Admin (nodeId root) ι) : Prop :=
  s.store.Locked ∧ s.store.Sound path (nodeId root)

theorem Good.step (hg : Good path root s) (hs : s.step path root me e = some t) :
    Good path root t := by
  rcases store_of_steps (steps_of_step hs) with heq | ⟨e', he'⟩
  · unfold Good
    rw [heq]
    exact hg
  · exact Adopt.good_step hg he'

theorem Good.grows (hg : Good path root s) (hs : s.step path root me e = some t) :
    Grows path (nodeId root) s.store.file t.store.file := by
  rcases store_of_steps (steps_of_step hs) with heq | ⟨e', he'⟩
  · rw [heq]
    exact .refl ..
  · exact grows_of_moves hg.2 (Adopt.moves_of_step he')

/-- The file still holds the policy that was read, or a newer one. -/
def Since (path : String) {root : NodeId} (h : Held root) (file : PolicyFile) : Prop :=
  h.version ≤ storedVersion path root file ∧
    (storedVersion path root file = h.version → read path root file = .ok (some h))

omit [DecidableEq ι] in
theorem since_of_read {root : NodeId} {h : Held root} {file : PolicyFile}
    (hread : read path root file = .ok (some h)) : Since path h file :=
  ⟨(storedVersion_of_read hread).ge, fun _ => hread⟩

omit [DecidableEq ι] in
theorem Since.grows {root : NodeId} {h : Held root} {file file' : PolicyFile}
    (hsince : Since path h file) (hgrows : Grows path root file file') : Since path h file' := by
  refine ⟨hsince.1.trans hgrows.1, fun heq => ?_⟩
  have hle : storedVersion path root file' ≤ storedVersion path root file := heq ▸ hsince.1
  have hsame := hgrows.2 (hle.antisymm hgrows.1)
  rw [hsame] at heq ⊢
  exact hsince.2 heq

omit [DecidableEq ι] in
/-- Where the next version is newer than what is stored, that is the policy that was read. -/
theorem Since.read_of_lt {root : NodeId} {h : Held root} {file : PolicyFile}
    (hsince : Since path h file) (hlt : storedVersion path root file < (h.version + 1 : StateVersion)) :
    read path root file = .ok (some h) ∧ (h.version + 1).toNat = h.version.toNat + 1 := by
  obtain ⟨hge, hread⟩ := hsince
  have hnext : h.version < h.version + 1 := WithBot.coe_lt_coe.mp (hge.trans_lt hlt)
  have hnat : (h.version + 1).toNat = h.version.toNat + 1 := by
    have hadd : (h.version + 1).toNat = (h.version.toNat + 1) % 2 ^ 64 := UInt64.toNat_add _ _
    have hbound := UInt64.toNat_lt h.version
    have hless := UInt64.lt_iff_toNat_lt.mp hnext
    omega
  refine ⟨hread ?_, hnat⟩
  obtain ⟨v, hv⟩ := WithBot.ne_bot_iff_exists.mp ((WithBot.bot_lt_coe _).trans_le hge).ne'
  rw [← hv] at hlt hge ⊢
  have hle := UInt64.le_iff_toNat_le.mp (WithBot.coe_le_coe.mp hge)
  have hless := UInt64.lt_iff_toNat_lt.mp (WithBot.coe_lt_coe.mp hlt)
  exact congrArg _ (UInt64.toNat_inj.mp (by omega))

/-! ## Changes -/

/-- A change of the stored policy: whose step it was, and what was stored before and after. -/
structure Change (root : NodeId) (ι : Type) where
  by_ : ι
  before : Option (Held root)
  after : Option (Held root)

/-- The policy stored, if there is one that verifies. -/
def stored (path : String) (root : NodeId) (file : PolicyFile) : Option (Held root) :=
  (read path root file).toOption.join

/-- What a step changes of the stored policy. -/
def changed (path : String) (root : NodeIdentity) (s : Admin (nodeId root) ι) (e : EditEvent ι)
    (t : Admin (nodeId root) ι) : List (Change (nodeId root) ι) :=
  if t.store.file = s.store.file then []
  else [⟨who e, stored path (nodeId root) s.store.file, stored path (nodeId root) t.store.file⟩]

/-- What a run changes of the stored policy, in order. -/
def changes (path : String) (root : NodeIdentity) (me : NodeId) :
    Admin (nodeId root) ι → List (EditEvent ι) → List (Change (nodeId root) ι)
  | _, [] => []
  | s, e :: es =>
    match s.step path root me e with
    | none => []
    | some t => changed path root s e t ++ changes path root me t es

theorem changes_concat (hs : run (step path root me) s es = some t)
    (ht : t.step path root me e = some u) : changes path root me s (es ++ [e]) =
      changes path root me s es ++ changed path root t e u := by
  induction es generalizing s with
  | nil =>
    obtain rfl := run_nil.mp hs
    simp [changes, ht]
  | cons e' es ih =>
    obtain ⟨v, hv, hrest⟩ := run_cons.mp hs
    simp only [List.cons_append, changes, hv, ih hrest, List.append_assoc]

/-- The first change is of what the run started with. -/
theorem before_of_changes {c : Change (nodeId root) ι} {cs : List (Change (nodeId root) ι)}
    (h : changes path root me s es = c :: cs) :
    c.before = stored path (nodeId root) s.store.file := by
  induction es generalizing s with
  | nil => cases h
  | cons e es ih =>
    rw [changes] at h
    split at h
    · cases h
    · rename_i t ht
      unfold changed at h
      split_ifs at h with hfile
      · rw [← hfile]
        exact ih h
      · obtain ⟨rfl, -⟩ := List.cons.inj h
        rfl

/-- What of it is one command's. -/
def changesOf (cs : List (Change (nodeId root) ι)) (i : ι) :
    List (Option (Held (nodeId root)) × Option (Held (nodeId root))) :=
  (cs.filter fun c => c.by_ = i).map fun c => (c.before, c.after)

theorem changesOf_append (cs ds : List (Change (nodeId root) ι)) (i : ι) :
    changesOf (cs ++ ds) i = changesOf cs i ++ changesOf ds i := by
  simp [changesOf]

/-! ## What a command did -/

/-- What a command's stage and its call of `adopt_if_newer` say of what it changed. -/
inductive Fate (path : String) (root : NodeIdentity) (file : PolicyFile) :
    EditStage (nodeId root) → Option Call →
      List (Option (Held (nodeId root)) × Option (Held (nodeId root))) → Prop
  | idle : Fate path root file .idle none []
  | looks {edit ttl} : Fate path root file (.looks edit ttl) none []
  | lists {edit ttl} : Fate path root file (.lists edit ttl) none []
  | signs {edit ttl listed} (hsome : storedVersion path (nodeId root) file ≠ ⊥) :
    Fate path root file (.signs edit ttl listed) none []
  | adopts {edit ttl listed c} {h : Held (nodeId root)}
    (hsign : signNext root ttl (edit.guarded listed) (some h) c.now = .ok c.candidate.policy)
    (hp : c.stage.pending = true) (hsince : Since path h file) :
    Fate path root file (.adopts edit ttl (some h)) (some c) []
  | kept {edit ttl held c r} (hr : c.stage.result = some r) (hne : r ≠ .ok true) :
    Fate path root file (.adopts edit ttl held) (some c) []
  | wrote {edit ttl c} {h next : Held (nodeId root)} (hr : c.stage.result = some (.ok true))
    (hnext : next.signed = c.candidate.policy) (hedit : EditedBy edit ttl h.policy next.policy)
    (hversion : next.version.toNat = h.version.toNat + 1) :
    Fate path root file (.adopts edit ttl (some h)) (some c) [(some h, some next)]
  | done {edit ttl c r} {h next : Held (nodeId root)} (hr : c.stage.result = some r)
    (hedit : EditedBy edit ttl h.policy next.policy)
    (hversion : next.version.toNat = h.version.toNat + 1) :
    Fate path root file (.done edit ttl (.ok next)) (some c) [(some h, some next)]
  | failed {edit ttl why} {call : Option Call} (hcall : ∀ c, call = some c → c.stage.pending = false) :
    Fate path root file (.done edit ttl (.error why)) call []

omit [DecidableEq ι] in
theorem Fate.grows {file file' : PolicyFile} {stage : EditStage (nodeId root)} {call : Option Call}
    {cs : List (Option (Held (nodeId root)) × Option (Held (nodeId root)))}
    (hf : Fate path root file stage call cs) (hgrows : Grows path (nodeId root) file file') :
    Fate path root file' stage call cs := by
  cases hf with
  | idle => exact .idle
  | looks => exact .looks
  | lists => exact .lists
  | signs hsome =>
    exact .signs ((bot_lt_iff_ne_bot.mpr hsome).trans_le hgrows.1).ne'
  | adopts hsign hp hsince => exact .adopts hsign hp (hsince.grows hgrows)
  | kept hr hne => exact .kept hr hne
  | wrote hr hnext hedit hversion => exact .wrote hr hnext hedit hversion
  | done hr hedit hversion => exact .done hr hedit hversion
  | failed hcall => exact .failed hcall

/-- What a step of a call that is made does to it. -/
inductive Progress (σ τ : Adopt ι) (c : Call) : Stage → Prop
  | pends {stage} (hp : c.stage.pending = true) (hs : stage.pending = true) (hf : τ.file = σ.file) :
    Progress σ τ c stage
  | keeps {stage r} (hp : c.stage.pending = true) (hr : stage.result = some r) (hne : r ≠ .ok true)
    (hf : τ.file = σ.file) : Progress σ τ c stage
  | writes (hc : c.stage = .writes) (hf : τ.file = .text (policyText c.candidate.policy)) :
    Progress σ τ c (.unlocks (.ok true))
  | unlocks {r} (hc : c.stage = .unlocks r) (hf : τ.file = σ.file) : Progress σ τ c (.returned r)

theorem progress_of_moves {σ τ : Adopt ι} {e : AdoptEvent ι} (hcall : ∀ i c now, e ≠ .call i c now)
    (hm : Adopt.Moves path (nodeId root) σ e τ) : ∃ c stage, σ.calls (Adopt.who e) = some c ∧
      τ.calls (Adopt.who e) = some { c with stage } ∧ Progress σ τ c stage := by
  have hsame : ∀ {i : ι} {c : Call} {stage : Stage},
      (σ.goes i c stage).calls i = some { c with stage } := fun {i c stage} => by
    rw [Adopt.calls_goes, if_pos rfl]
  cases hm with
  | offered => exact absurd rfl (hcall _ _ _)
  | refused => exact absurd rfl (hcall _ _ _)
  | locks hi hs => exact ⟨_, _, hi, hsame, .pends (by rw [hs]; rfl) rfl rfl⟩
  | unread hi hs => exact ⟨_, _, hi, hsame, .keeps (by rw [hs]; rfl) rfl nofun rfl⟩
  | first hi hs => exact ⟨_, _, hi, hsame, .pends (by rw [hs]; rfl) rfl rfl⟩
  | newer hi hs => exact ⟨_, _, hi, hsame, .pends (by rw [hs]; rfl) rfl rfl⟩
  | older hi hs => exact ⟨_, _, hi, hsame, .keeps (by rw [hs]; rfl) rfl nofun rfl⟩
  | writes hi hs => exact ⟨_, _, hi, hsame, .writes hs rfl⟩
  | unlocks hi hs => exact ⟨_, _, hi, hsame, .unlocks hs rfl⟩
  | failsWaiting hi hs => exact ⟨_, _, hi, hsame, .keeps (by rw [hs]; rfl) rfl nofun rfl⟩
  | failsLocked hi hs =>
    exact ⟨_, _, hi, hsame, .keeps (by rcases hs with hs | hs <;> rw [hs] <;> rfl) rfl nofun rfl⟩

omit [Crypto] in
theorem pending_of_result {stage : Stage} {r : Except Anyhow Bool} (h : stage.result = some r) :
    stage.pending = false := by
  cases stage <;> first | rfl | cases h

omit [DecidableEq ι] in
/-- A step that leaves the file changes nothing. -/
theorem changed_of_file (h : t.store.file = s.store.file) : changed path root s e t = [] :=
  if_pos h

theorem stage_goes (a : EditStage (nodeId root)) : (s.goes i a).stage i = a :=
  Function.update_self ..

omit [DecidableEq ι] in
/-- A call that writes replaces the policy that its command read. -/
theorem written {c : Call} {h : Held (nodeId root)} {edit : PolicyEdit} {ttl : Ttl} {listed : Bool}
    {file : PolicyFile} (hg : Good path root s) (hc : s.store.calls i = some c)
    (hs : c.stage = .writes)
    (hsign : signNext root ttl (edit.guarded listed) (some h) c.now = .ok c.candidate.policy)
    (hsince : Since path h s.store.file) (hfile : file = .text (policyText c.candidate.policy)) :
    ∃ next : Held (nodeId root), read path (nodeId root) s.store.file = .ok (some h) ∧
      read path (nodeId root) file = .ok (some next) ∧ next.signed = c.candidate.policy ∧
      EditedBy edit ttl h.policy next.policy ∧ next.version.toNat = h.version.toNat + 1 := by
  have hp : c.stage.pending = true := by
    rw [hs]
    rfl
  obtain ⟨hverify, -⟩ := checkOffered_eq_ok.mp (hg.2.checked i c hc hp)
  obtain ⟨next, hread, hnext⟩ := read_policyText path hverify
  obtain ⟨hedit, hversion, -⟩ := edited_of_signNext hsign hnext
  have hlt := hg.2.newer i c hc hs
  rw [← hnext, ← Held.version, hversion] at hlt
  obtain ⟨hbase, hnat⟩ := hsince.read_of_lt hlt
  exact ⟨next, hbase, hfile ▸ hread, hnext, hedit, hversion ▸ hnat⟩

/-- A step of a command's call. -/
theorem Fate.store {e : AdoptEvent ι} {store : Adopt ι}
    {cs : List (Option (Held (nodeId root)) × Option (Held (nodeId root)))} (hg : Good path root s)
    (hcall : ∀ i c now, e ≠ .call i c now)
    (hm : Adopt.Moves path (nodeId root) s.store e store)
    (hf : Fate path root s.store.file (s.stage (Adopt.who e)) (s.store.calls (Adopt.who e)) cs) :
    Fate path root store.file (s.stage (Adopt.who e)) (store.calls (Adopt.who e))
      (cs ++ changesOf (changed path root s (.store e) { s with store }) (Adopt.who e)) := by
  obtain ⟨c, stage, hc, hc', hprogress⟩ := progress_of_moves hcall hm
  have hkept : store.file = s.store.file →
      cs ++ changesOf (changed path root s (.store e) { s with store }) (Adopt.who e) = cs := by
    intro hfile
    have hnone : changed path root s (.store e) { s with store } = [] := changed_of_file hfile
    rw [hnone]
    exact List.append_nil cs
  rw [hc]  at hf
  rw [hc']
  generalize s.stage (Adopt.who e) = a at hf ⊢
  cases hprogress with
  | pends hp hs hfile =>
    rw [hkept hfile, hfile]
    cases hf with
    | adopts hsign _ hsince => exact .adopts (c := { c with stage }) hsign hs hsince
    | kept hr => simp [pending_of_result hr] at hp
    | wrote hr => simp [pending_of_result hr] at hp
    | done hr => simp [pending_of_result hr] at hp
    | failed hpend => simp [hpend c rfl] at hp
  | keeps hp hr hne hfile =>
    rw [hkept hfile, hfile]
    cases hf with
    | adopts => exact .kept (c := { c with stage }) hr hne
    | kept hr' => simp [pending_of_result hr'] at hp
    | wrote hr' => simp [pending_of_result hr'] at hp
    | done hr' => simp [pending_of_result hr'] at hp
    | failed hpend => simp [hpend c rfl] at hp
  | @unlocks r hs hfile =>
    rw [hkept hfile, hfile]
    have hresult : c.stage.result = some r := by
      rw [hs]
      rfl
    cases hf with
    | adopts _ hp => simp [pending_of_result hresult] at hp
    | kept hr hne =>
      obtain rfl := Option.some.inj (hresult.symm.trans hr)
      exact .kept (c := { c with stage := .returned _ }) rfl hne
    | wrote hr hnext hedit hversion =>
      obtain rfl := Option.some.inj (hresult.symm.trans hr)
      exact .wrote (c := { c with stage := .returned _ }) rfl hnext hedit hversion
    | done hr hedit hversion => exact .done (c := { c with stage := .returned r }) rfl hedit hversion
    | failed => exact .failed fun _ hd => Option.some.inj hd ▸ rfl
  | writes hs hfile =>
    cases hf with
    | @adopts edit ttl listed _ h hsign hp hsince =>
      obtain ⟨next, hbase, hread, hnext, hedit, hversion⟩ := written hg hc hs hsign hsince hfile
      have hne : store.file ≠ s.store.file := by
        intro heq
        rw [heq, hbase] at hread
        obtain rfl := Option.some.inj (Except.ok.inj hread)
        omega
      have hchanged : changesOf (changed path root s (.store e) { s with store }) (Adopt.who e) =
          [(some h, some next)] := by
        simp [changed, hne, changesOf, stored, hbase, hread, who, Except.toOption]
      rw [hchanged]
      exact .wrote (c := { c with stage := .unlocks (.ok true) }) rfl hnext hedit hversion
    | kept hr => simp [hs, Stage.result] at hr
    | wrote hr => simp [hs, Stage.result] at hr
    | done hr => simp [hs, Stage.result] at hr
    | failed hpend => simp [hs, Stage.pending] at hpend

/-- A command that has not called `adopt_if_newer`. -/
def Early : EditStage (nodeId root) → Prop
  | .idle | .looks .. | .lists .. | .signs .. => True
  | _ => False

omit [DecidableEq ι] in
theorem Fate.early {file : PolicyFile} {a : EditStage (nodeId root)} {call : Option Call}
    {cs : List (Option (Held (nodeId root)) × Option (Held (nodeId root)))}
    (hf : Fate path root file a call cs) (ha : Early a) : call = none ∧ cs = [] := by
  cases hf with
  | idle => exact ⟨rfl, rfl⟩
  | looks => exact ⟨rfl, rfl⟩
  | lists => exact ⟨rfl, rfl⟩
  | signs => exact ⟨rfl, rfl⟩
  | adopts => exact ha.elim
  | kept => exact ha.elim
  | wrote => exact ha.elim
  | done => exact ha.elim
  | failed => exact ha.elim

/-- A command's own step. -/
theorem Fate.own {cs : List (Option (Held (nodeId root)) × Option (Held (nodeId root)))}
    (hg : Good path root s) (hs : Steps path root s e t)
    (hf : Fate path root s.store.file (s.stage (who e)) (s.store.calls (who e)) cs) :
    Fate path root t.store.file (t.stage (who e)) (t.store.calls (who e))
      (cs ++ changesOf (changed path root s e t) (who e)) := by
  have hkept : t.store.file = s.store.file →
      cs ++ changesOf (changed path root s e t) (who e) = cs := by
    intro hfile
    rw [changed_of_file hfile]
    exact List.append_nil cs
  cases hs with
  | asks hi =>
    rw [hkept rfl, who, stage_goes]
    obtain ⟨hcall, rfl⟩ := hf.early (by rw [who, hi]; trivial)
    exact hcall ▸ .looks
  | looks hi =>
    rw [hkept rfl, who, stage_goes]
    obtain ⟨hcall, rfl⟩ := hf.early (by rw [who, hi]; trivial)
    exact hcall ▸ .lists
  | lists hi hread =>
    rw [hkept rfl, who, stage_goes]
    obtain ⟨hcall, rfl⟩ := hf.early (by rw [who, hi]; trivial)
    refine hcall ▸ .signs ?_
    show storedVersion path (nodeId root) s.store.file ≠ ⊥
    rw [storedVersion_of_read hread]
    exact WithBot.coe_ne_bot
  | @signs i edit ttl listed now c held store hi hread hsign hstore =>
    have hm := Adopt.moves_of_step hstore
    have hfile : store.file = s.store.file := by cases hm <;> rfl
    rw [hkept hfile]
    obtain ⟨hnone, rfl⟩ := hf.early (by rw [who, hi]; trivial)
    rw [hnone, who, hi] at hf
    show Fate path root store.file ((s.goes i (.adopts edit ttl held)).stage i) (store.calls i) []
    rw [stage_goes, hfile]
    cases held with
    | none =>
      cases hf with
      | signs hsome => exact absurd (storedVersion_of_read hread) hsome
    | some h =>
      have hcall : store.calls i = some ⟨c, now, .waits⟩ := by
        cases hm with
        | offered => exact Function.update_self ..
        | refused _ hrefused => simp [checkOffered_of_signNext hsign] at hrefused
      rw [hcall]
      exact .adopts (c := ⟨c, now, .waits⟩) hsign rfl (since_of_read hread)
  | store hcall hstore => exact hf.store hg hcall (Adopt.moves_of_step hstore)
  | @answers i edit ttl held c r hi hcall hr =>
    rw [hkept rfl, who, stage_goes]
    rw [who, hi, hcall] at hf
    show Fate path root s.store.file _ (s.store.calls i) cs
    rw [hcall]
    have hresult : c.stage.result = some r := by
      rw [hr]
      rfl
    cases hf with
    | adopts _ hp => simp [pending_of_result hresult] at hp
    | kept hr' hne =>
      obtain rfl := Option.some.inj (hresult.symm.trans hr')
      have hpend : ∀ d, some c = some d → d.stage.pending = false := fun d hd =>
        Option.some.inj hd ▸ pending_of_result hresult
      cases r with
      | error why => exact .failed hpend
      | ok b =>
        cases b with
        | false => exact .failed hpend
        | true => exact absurd rfl hne
    | wrote hr' hnext hedit hversion =>
      obtain rfl := Option.some.inj (hresult.symm.trans hr')
      have hverify := Held.verify_eq_ok.mpr hnext
      rw [signedNext, hverify]
      exact .done hresult hedit hversion
  | stops hi =>
    rw [hkept rfl, stage_goes]
    obtain ⟨hcall, rfl⟩ := hf.early (by rcases hi with hi | hi | ⟨listed, hi⟩ <;> rw [hi] <;> trivial)
    refine .failed fun c hc => ?_
    cases hcall.symm.trans hc

/-- Another command's step. -/
theorem other_of_steps (hs : Steps path root s e t) (hi : who e ≠ i) : t.stage i = s.stage i ∧
    t.store.calls i = s.store.calls i ∧ changesOf (changed path root s e t) i = [] := by
  have hchanged : changesOf (changed path root s e t) i = [] := by
    unfold changed
    split_ifs
    · rfl
    · simp [changesOf, hi]
  have hgoes : ∀ {j : ι} {a : EditStage (nodeId root)}, j ≠ i → (s.goes j a).stage i = s.stage i :=
    fun hj => Function.update_of_ne hj.symm ..
  cases hs with
  | signs _ _ _ hstore =>
    exact ⟨hgoes hi, Adopt.calls_of_ne (Adopt.moves_of_step hstore) hi, hchanged⟩
  | store _ hstore => exact ⟨rfl, Adopt.calls_of_ne (Adopt.moves_of_step hstore) hi, hchanged⟩
  | asks => exact ⟨hgoes hi, rfl, hchanged⟩
  | looks => exact ⟨hgoes hi, rfl, hchanged⟩
  | lists => exact ⟨hgoes hi, rfl, hchanged⟩
  | answers => exact ⟨hgoes hi, rfl, hchanged⟩
  | stops => exact ⟨hgoes hi, rfl, hchanged⟩

/-- Every command's fate after a run. -/
theorem fate_of_run {file : PolicyFile} {held : Option (Held (nodeId root))}
    (hread : read path (nodeId root) file = .ok held)
    (hrun : run (step path root me) (start file) es = some s) (i : ι) :
    Good path root s ∧ Fate path root s.store.file (s.stage i) (s.store.calls i)
      (changesOf (changes path root me (start file) es) i) := by
  refine run_induction (motive := fun es s => Good path root s ∧
    Fate path root s.store.file (s.stage i) (s.store.calls i)
      (changesOf (changes path root me (start file) es) i))
    ⟨show Good path root (start file) from Adopt.good_start hread, .idle⟩
    (fun es e t u ht ih he => ?_) hrun
  obtain ⟨hg, hf⟩ := ih
  have hs := steps_of_step he
  refine ⟨hg.step he, ?_⟩
  rw [changes_concat ht he, changesOf_append]
  by_cases hi : who e = i
  · subst hi
    exact hf.own hg hs
  · obtain ⟨hstage, hcalls, hchanged⟩ := other_of_steps hs hi
    rw [hstage, hcalls, hchanged, List.append_nil]
    exact hf.grows (hg.grows he)

/-! ## What lasts -/

/-- Every command's stage and call fit. -/
def Fated (path : String) (root : NodeIdentity) (s : Admin (nodeId root) ι) : Prop :=
  Good path root s ∧
    ∀ i, ∃ cs, Fate path root s.store.file (s.stage i) (s.store.calls i) cs

theorem Fated.step (h : Fated path root s) (he : s.step path root me e = some t) :
    Fated path root t := by
  obtain ⟨hg, hf⟩ := h
  have hs := steps_of_step he
  refine ⟨hg.step he, fun i => ?_⟩
  obtain ⟨cs, hfate⟩ := hf i
  by_cases hi : who e = i
  · subst hi
    exact ⟨_, hfate.own hg hs⟩
  · obtain ⟨hstage, hcalls, -⟩ := other_of_steps hs hi
    rw [hstage, hcalls]
    exact ⟨cs, hfate.grows (hg.grows he)⟩

/-- What replaces the stored policy is it, changed by a command that has signed. -/
theorem Fated.replaced (h : Fated path root s) (he : s.step path root me e = some t) :
    t.store.file = s.store.file ∨ ∃ i edit ttl, ∃ base next : Held (nodeId root),
      s.stage i = .adopts edit ttl (some base) ∧
      read path (nodeId root) s.store.file = .ok (some base) ∧
      read path (nodeId root) t.store.file = .ok (some next) ∧
      EditedBy edit ttl base.policy next.policy := by
  obtain ⟨hg, hf⟩ := h
  rcases store_of_steps (steps_of_step he) with heq | ⟨e', he'⟩
  · rw [heq]
    exact .inl rfl
  · have hm := Adopt.moves_of_step he'
    generalize t.store = store at hm ⊢
    cases hm with
    | @writes i c hc hs =>
      obtain ⟨cs, hfate⟩ := hf i
      rw [hc] at hfate
      generalize hstage : s.stage i = a at hfate
      cases hfate with
      | @adopts edit ttl listed _ base hsign hp hsince =>
        obtain ⟨next, hbase, hread, -, hedit, -⟩ := written hg hc hs hsign hsince rfl
        exact .inr ⟨i, edit, ttl, base, next, hstage, hbase, hread, hedit⟩
      | kept hr => simp [hs, Stage.result] at hr
      | wrote hr => simp [hs, Stage.result] at hr
      | done hr => simp [hs, Stage.result] at hr
      | failed hpend => simp [hs, Stage.pending] at hpend
    | _ => exact .inl rfl

/-- An edit that signs, and whose guard found no directory, does not drop the last one there is by
now. -/
def Guarded (path : String) (root : NodeIdentity) (s : Admin (nodeId root) ι) : EditEvent ι → Prop
  | .signs i _ _ => ∀ edit ttl, ∀ h : Held (nodeId root), ∀ q,
    s.stage i = .signs edit ttl false → read path (nodeId root) s.store.file = .ok (some h) →
      h.policy.directories ≠ [] → edit.change h.policy = .ok q → q.directories ≠ []
  | _ => True

/-- A command that has called `adopt_if_newer` and waits for it. -/
def Adopts : EditStage (nodeId root) → Prop
  | .adopts .. => True
  | _ => False

/-- No edit that has signed drops the last directory. -/
def Lists (s : Admin (nodeId root) ι) : Prop := ∀ i edit ttl, ∀ h : Held (nodeId root), ∀ q,
  s.stage i = .adopts edit ttl (some h) → h.policy.directories ≠ [] →
    edit.change h.policy = .ok q → q.directories ≠ []

omit [DecidableEq ι] in
theorem lists_start (file : PolicyFile) : Lists (start file : Admin (nodeId root) ι) := by
  intro i edit ttl h q hi
  cases hi

theorem Lists.step (h : Lists s) (hc : Guarded path root s e)
    (he : s.step path root me e = some t) : Lists t := by
  have hgoes : ∀ {i : ι} {a : EditStage (nodeId root)}, ¬Adopts a → Lists (s.goes i a) := by
    intro i a ha j edit ttl held q hj
    by_cases hji : j = i
    · subst hji
      rw [stage_goes] at hj
      rw [hj] at ha
      exact absurd trivial ha
    · exact h j edit ttl held q ((Function.update_of_ne hji _ s.stage).symm.trans hj)
  cases steps_of_step he with
  | asks => exact hgoes id
  | looks => exact hgoes id
  | lists => exact hgoes id
  | @signs i edit ttl listed now c held store hi hread hsign =>
    intro j edit' ttl' h' q hj hdirs hq
    by_cases hji : j = i
    · subst hji
      have hj : (s.goes j (.adopts edit ttl held)).stage j = .adopts edit' ttl' (some h') := hj
      rw [stage_goes] at hj
      obtain ⟨rfl, rfl, rfl⟩ := EditStage.adopts.inj hj
      cases listed with
      | false => exact hc edit ttl h' q hi hread hdirs hq
      | true =>
        obtain ⟨q', hq', hlisted, -⟩ := signNext_eq_ok.mp hsign
        obtain rfl := Except.ok.inj (hq.symm.trans hq')
        exact fun hnil => hlisted ⟨rfl, hnil⟩
    · exact h j edit' ttl' h' q ((Function.update_of_ne hji _ s.stage).symm.trans hj) hdirs hq
  | store => exact h
  | answers => exact hgoes id
  | stops => exact hgoes id

/-- Every step keeps at least the expiry that is stored. -/
theorem Fated.notAfter_le (h : Fated path root s) (he : s.step path root me e = some t)
    {a b : Held (nodeId root)} (ha : read path (nodeId root) s.store.file = .ok (some a))
    (hb : read path (nodeId root) t.store.file = .ok (some b)) :
    a.policy.notAfter ≤ b.policy.notAfter := by
  rcases h.replaced he with hfile | ⟨i, edit, ttl, base, next, -, hbase, hnext, q, now, -, hedit⟩
  · rw [hfile, ha] at hb
    obtain rfl := Option.some.inj (Except.ok.inj hb)
    exact Int64.le_refl _
  · obtain rfl := Option.some.inj (Except.ok.inj (ha.symm.trans hbase))
    obtain rfl := Option.some.inj (Except.ok.inj (hb.symm.trans hnext))
    rw [hedit]
    exact (i64_le_max _ _).2

/-- A step that keeps the guard keeps a directory. -/
theorem Fated.directories_ne (h : Fated path root s) (hl : Lists s)
    (he : s.step path root me e = some t) {a b : Held (nodeId root)}
    (ha : read path (nodeId root) s.store.file = .ok (some a))
    (hb : read path (nodeId root) t.store.file = .ok (some b)) (hdirs : a.policy.directories ≠ []) :
    b.policy.directories ≠ [] := by
  rcases h.replaced he with hfile | ⟨i, edit, ttl, base, next, hi, hbase, hnext, q, now, hq, hedit⟩
  · rw [hfile, ha] at hb
    obtain rfl := Option.some.inj (Except.ok.inj hb)
    exact hdirs
  · obtain rfl := Option.some.inj (Except.ok.inj (ha.symm.trans hbase))
    obtain rfl := Option.some.inj (Except.ok.inj (hb.symm.trans hnext))
    rw [hedit]
    exact hl i edit ttl a q hi hdirs hq

/-- A policy that is stored stays, or another takes its place. -/
theorem Fated.exists_read (h : Fated path root s) (he : s.step path root me e = some t)
    {a : Held (nodeId root)} (ha : read path (nodeId root) s.store.file = .ok (some a)) :
    ∃ b, read path (nodeId root) t.store.file = .ok (some b) := by
  rcases h.replaced he with hfile | ⟨i, edit, ttl, base, next, -, -, hnext, -⟩
  · exact ⟨a, hfile ▸ ha⟩
  · exact ⟨next, hnext⟩

theorem fated_of_run {file : PolicyFile} {held : Option (Held (nodeId root))}
    (hread : read path (nodeId root) file = .ok held)
    (hrun : run (step path root me) (start file) es = some s) : Fated path root s :=
  run_invariant (P := Fated path root) (fun _ _ _ h he => h.step he)
    ⟨show Good path root (start file) from Adopt.good_start hread, fun _ => ⟨[], .idle⟩⟩ hrun

/-- Edits of one keystore, in any interleaving. An edit that answers `Ok` changed the stored policy once,
from the version before; one that fails changed nothing; the policy stored always verifies and
validates; its expiry never goes down; and if each edit that signs keeps the guard, a policy that lists
a directory is never followed by one that lists none. -/
theorem edits_linearize (path : String) (root : NodeIdentity) (me : NodeId) (file : PolicyFile)
    (held : Option (Held (nodeId root))) (hread : read path (nodeId root) file = .ok held)
    (es : List (EditEvent ι)) (s : Admin (nodeId root) ι)
    (hrun : run (step path root me) (start file) es = some s) :
    (∀ i edit ttl next, s.stage i = .done edit ttl (.ok next) → ∃ base : Held (nodeId root),
      changesOf (changes path root me (start file) es) i = [(some base, some next)] ∧
      next.version.toNat = base.version.toNat + 1 ∧ EditedBy edit ttl base.policy next.policy) ∧
    (∀ i edit ttl why, s.stage i = .done edit ttl (.error why) →
      changesOf (changes path root me (start file) es) i = []) ∧
    (∃ now, read path (nodeId root) s.store.file = .ok now ∧ ∀ h, now = some h →
      h.signed.verify (nodeId root) = .ok () ∧ h.policy.validate = .ok ()) ∧
    (∀ before after t a b, es = before ++ after →
      run (step path root me) (start file) before = some t →
      read path (nodeId root) t.store.file = .ok (some a) →
      read path (nodeId root) s.store.file = .ok (some b) → a.policy.notAfter ≤ b.policy.notAfter) ∧
    ((∀ before e after t, es = before ++ e :: after →
        run (step path root me) (start file) before = some t → Guarded path root t e) →
      ∀ before after t a b, es = before ++ after →
        run (step path root me) (start file) before = some t →
        read path (nodeId root) t.store.file = .ok (some a) →
        read path (nodeId root) s.store.file = .ok (some b) →
        a.policy.directories ≠ [] → b.policy.directories ≠ []) := by
  refine ⟨fun i edit ttl next hi => ?_, fun i edit ttl why hi => ?_, ?_,
    fun before after t a b heq ht ha hb => ?_, fun hguard before after t a b heq ht ha hb hdirs => ?_⟩
  · obtain ⟨-, hf⟩ := fate_of_run hread hrun i
    rw [hi] at hf
    generalize changesOf (changes path root me (start file) es) i = cs at hf ⊢
    generalize s.store.calls i = call at hf
    cases hf with
    | done _ hedit hversion => exact ⟨_, rfl, hversion, hedit⟩
  · obtain ⟨-, hf⟩ := fate_of_run hread hrun i
    rw [hi] at hf
    generalize changesOf (changes path root me (start file) es) i = cs at hf ⊢
    generalize s.store.calls i = call at hf
    cases hf with
    | failed => rfl
  · obtain ⟨now, hnow⟩ := (fated_of_run hread hrun).1.2.stored
    exact ⟨now, hnow, fun h _ => ⟨h.verified, h.validate⟩⟩
  · subst heq
    obtain ⟨t', ht', hrest⟩ := run_append.mp hrun
    obtain rfl := Option.some.inj (ht.symm.trans ht')
    have hkept : Fated path root s ∧ ∃ c : Held (nodeId root),
        read path (nodeId root) s.store.file = .ok (some c) ∧ a.policy.notAfter ≤ c.policy.notAfter := by
      refine run_invariant (P := fun s => Fated path root s ∧ ∃ c : Held (nodeId root),
        read path (nodeId root) s.store.file = .ok (some c) ∧
          a.policy.notAfter ≤ c.policy.notAfter) ?_
        ⟨fated_of_run hread ht, a, ha, Int64.le_refl _⟩ hrest
      rintro u e v ⟨hu, c, hc, hle⟩ he
      obtain ⟨d, hd⟩ := hu.exists_read he hc
      exact ⟨hu.step he, d, hd, Int64.le_trans hle (hu.notAfter_le he hc hd)⟩
    obtain ⟨-, c, hc, hle⟩ := hkept
    obtain rfl := Option.some.inj (Except.ok.inj (hb.symm.trans hc))
    exact hle
  · subst heq
    obtain ⟨t', ht', hrest⟩ := run_append.mp hrun
    obtain rfl := Option.some.inj (ht.symm.trans ht')
    have hlists : Lists t := by
      refine run_invariant_of (P := Lists) (fun _ _ _ h hc he => h.step hc he)
        (lists_start file)
        (fun es₁ e es₂ u heq hu => hguard es₁ e (es₂ ++ after) u ?_ hu) ht
      rw [heq, List.append_assoc, List.cons_append]
    have hkept : (Fated path root s ∧ Lists s) ∧ ∃ c : Held (nodeId root),
        read path (nodeId root) s.store.file = .ok (some c) ∧ c.policy.directories ≠ [] := by
      refine run_invariant_of (P := fun s => (Fated path root s ∧ Lists s) ∧
        ∃ c : Held (nodeId root), read path (nodeId root) s.store.file = .ok (some c) ∧
          c.policy.directories ≠ []) (C := Guarded path root) ?_
        ⟨⟨fated_of_run hread ht, hlists⟩, a, ha, hdirs⟩ (fun es₁ e es₂ u heq hu => ?_) hrest
      · rintro u e v ⟨⟨hu, hl⟩, c, hc, hne⟩ hguarded he
        obtain ⟨d, hd⟩ := hu.exists_read he hc
        exact ⟨⟨hu.step he, hl.step hguarded he⟩, d, hd, hu.directories_ne hl he hc hd hne⟩
      · refine hguard (before ++ es₁) e es₂ u ?_ (run_append.mpr ⟨t, ht, hu⟩)
        rw [heq, List.append_assoc]
    obtain ⟨-, c, hc, hne⟩ := hkept
    obtain rfl := Option.some.inj (Except.ok.inj (hb.symm.trans hc))
    exact hne

/-! ## An edit that is done -/

/-- The events of a command up to its guard. -/
def beginning (i : ι) (edit : PolicyEdit) (ttl : Ttl) : List (EditEvent ι) :=
  [.asks i edit ttl, .looks i, .lists i]

/-- The events of a command that signs and replaces the policy. -/
def settling (i : ι) (now : Int64) (c : Candidate) : List (EditEvent ι) :=
  [.signs i now c, .store (.lock i), .store (.read i), .store (.write i), .store (.unlock i),
    .answers i]

theorem run_beginning (edit : PolicyEdit) (ttl : Ttl) {h : Held (nodeId root)}
    (hi : s.stage i = .idle) (hread : read path (nodeId root) s.store.file = .ok (some h))
    (hbefore : edit.before me (.ok h) = .ok ()) :
    ∃ t, run (step path root me) s (beginning i edit ttl) = some t ∧ t.store = s.store ∧
      t.stage i = .signs edit ttl (!h.signed.head.head.directories.isEmpty) ∧
      ∀ j, j ≠ i → t.stage j = s.stage j := by
  have hadmin := adminPolicy_eq_ok.mpr hread
  simp only [beginning, run, step, hi, goes, Function.update_self, hadmin, hbefore, Option.bind_some]
  refine ⟨_, rfl, rfl, Function.update_self .., fun j hj => ?_⟩
  simp only [Function.update_of_ne hj]

variable (me) in
theorem run_settling {edit : PolicyEdit} {ttl : Ttl} {listed : Bool} {now : Int64}
    {h next : Held (nodeId root)} {c : Candidate} (hi : s.stage i = .signs edit ttl listed)
    (hcall : s.store.calls i = none) (hlock : s.store.lock = none)
    (hread : read path (nodeId root) s.store.file = .ok (some h))
    (hsign : signNext root ttl (edit.guarded listed) (some h) now = .ok c.policy)
    (hnext : next.signed = c.policy) (hlt : h.version < h.version + 1) :
    ∃ t, run (step path root me) s (settling i now c) = some t ∧
      t.stage i = .done edit ttl (.ok next) ∧
      read path (nodeId root) t.store.file = .ok (some next) ∧ t.store.lock = none ∧
      ∀ j, j ≠ i → t.stage j = s.stage j ∧ t.store.calls j = s.store.calls j := by
  obtain ⟨⟨file, lock, calls⟩, stage⟩ := s
  simp only at hi hcall hlock hread
  subst hlock
  have hoffered := checkOffered_of_signNext hsign
  have hverify := (checkOffered_eq_ok.mp hoffered).1
  have hnewer : c.policy.isNewerThan h.signed = true := by
    obtain ⟨-, hversion, -⟩ := edited_of_signNext hsign hnext
    rw [isNewerThan_iff hverify h.verified, ← hnext]
    show h.version < next.version
    rw [hversion]
    exact hlt
  have hwritten : read path (nodeId root) (.text (policyText c.policy)) = .ok (some next) := by
    obtain ⟨next', hread', hsigned⟩ := read_policyText path hverify
    have hsame : Held.verify c.policy (nodeId root) = .ok next' := Held.verify_eq_ok.mpr hsigned
    rw [hread', ← Except.ok.inj ((Held.verify_eq_ok.mpr hnext).symm.trans hsame)]
  have hsigned : signedNext (nodeId root) c.policy (.ok true) = .ok next := Held.verify_eq_ok.mpr hnext
  simp only [settling, run, step, signing, hi, hread, hsign, if_true, goes, Adopt.step, Adopt.goes,
    Adopt.found, hcall, hoffered, hnewer, Function.update_self, Option.bind_some, Option.map_some,
    Option.bind_eq_bind, Option.pure_def, if_neg (newline_notMem_jsonText c.policy), hsigned]
  refine ⟨_, rfl, Function.update_self .., hwritten, rfl, fun j hj => ⟨?_, ?_⟩⟩
  · simp only [Function.update_of_ne hj]
  · simp only [Function.update_of_ne hj]

end

/-! ## A directory that is dropped -/

section Sample

attribute [local instance] Crypto.plain

theorem pos_sampleTtl : (0 : Int64) < 10 := by decide

def sampleTtl : Ttl := ⟨10, pos_sampleTtl⟩

/-- Version 1 lists no directory, as a network that has just been made. -/
def bare : Policy := { samplePolicy 1 [sampleNode 2] with directories := [] }

/-- Version 2 lists one. -/
def listing : Policy := Policy.following { bare with directories := [sampleNode 3] } bare sampleTtl 5

/-- Version 3 lists none again. -/
def emptied : Policy := Policy.following { listing with directories := [] } listing sampleTtl 5

/-- A version 3 that lists another besides. -/
def widened : Policy :=
  Policy.following { listing with directories := [sampleNode 3, sampleNode 5] } listing sampleTtl 5

theorem validate_bare : bare.validate = .ok () := by decide

def bareHeld : Held (nodeId sampleRoot) :=
  ⟨bare.signed sampleRoot none, bare, Policy.verify_signed_none rfl validate_bare,
    Policy.toPolicy_signed rfl⟩

theorem validate_listing : listing.validate = .ok () := by decide

theorem validate_emptied : emptied.validate = .ok () := by decide

theorem validate_widened : widened.validate = .ok () := by decide

theorem verify_after {p : Policy} {previous : Held (nodeId sampleRoot)}
    (hfabric : nodeId sampleRoot = p.fabric) (hvalid : p.validate = .ok ()) :
    (p.signed sampleRoot (some previous.signed)).verify (nodeId sampleRoot) = .ok () := by
  refine Policy.verify_signed hfabric hvalid fun prev h => ⟨nodeId sampleRoot, ?_⟩
  obtain rfl := Option.some.inj h
  exact previous.verified

/-- A policy signed after another. -/
def heldAfter (p : Policy) (hfabric : nodeId sampleRoot = p.fabric) (hvalid : p.validate = .ok ())
    (previous : Held (nodeId sampleRoot)) : Held (nodeId sampleRoot) :=
  ⟨p.signed sampleRoot (some previous.signed), p, verify_after hfabric hvalid,
    Policy.toPolicy_signed hfabric⟩

def listingHeld : Held (nodeId sampleRoot) := heldAfter listing rfl validate_listing bareHeld

def emptiedHeld : Held (nodeId sampleRoot) := heldAfter emptied rfl validate_emptied listingHeld

def widenedHeld : Held (nodeId sampleRoot) := heldAfter widened rfl validate_widened listingHeld

theorem parsed_bare : bare.Parsed := fun _ he => absurd he List.not_mem_nil

def bareOffer : Candidate := ⟨bareHeld.signed, Policy.parsed_signed parsed_bare⟩

def listingOffer : Candidate := ⟨listingHeld.signed, Policy.parsed_signed parsed_bare⟩

def emptiedOffer : Candidate := ⟨emptiedHeld.signed, Policy.parsed_signed parsed_bare⟩

def widenedOffer : Candidate := ⟨widenedHeld.signed, Policy.parsed_signed parsed_bare⟩

theorem read_bare : read "policy.json" (nodeId sampleRoot) (.text (policyText bareOffer.policy)) =
    .ok (some bareHeld) := by
  obtain ⟨held, hread, hs⟩ := read_policyText "policy.json" (c := bareOffer) bareHeld.verified
  have hsame : Held.verify bareHeld.signed (nodeId sampleRoot) = .ok held := Held.verify_eq_ok.mpr hs
  rw [hread, ← Except.ok.inj ((Held.verify_eq_ok (h := bareHeld).mpr rfl).symm.trans hsame)]

/-- While nothing is listed, `true` begins an edit; `false` then adds directory 3. -/
def sampleEvents (edit : PolicyEdit) : List (EditEvent Bool) :=
  beginning true edit sampleTtl ++
    (beginning false (.directoryAdd (sampleNode 3)) sampleTtl ++ settling false 5 listingOffer)

theorem sign_listing : signNext sampleRoot sampleTtl
    ((PolicyEdit.directoryAdd (sampleNode 3)).guarded false) (some bareHeld) 5 =
      .ok listingOffer.policy := by
  have hchange : (PolicyEdit.directoryAdd (sampleNode 3)).change bareHeld.policy =
      .ok { bare with directories := [sampleNode 3] } := by decide
  exact signNext_eq_ok.mpr ⟨_, hchange, nofun, validate_listing, rfl⟩

theorem sign_emptied : signNext sampleRoot sampleTtl
    ((PolicyEdit.directoryRm (sampleNode 3)).guarded false) (some listingHeld) 5 =
      .ok emptiedOffer.policy := by
  have hchange : (PolicyEdit.directoryRm (sampleNode 3)).change listingHeld.policy =
      .ok { listing with directories := [] } := by decide
  exact signNext_eq_ok.mpr ⟨_, hchange, nofun, validate_emptied, rfl⟩

theorem sign_widened : signNext sampleRoot sampleTtl
    ((PolicyEdit.directoryAdd (sampleNode 5)).guarded false) (some listingHeld) 5 =
      .ok widenedOffer.policy := by
  have hchange : (PolicyEdit.directoryAdd (sampleNode 5)).change listingHeld.policy =
      .ok { listing with directories := [sampleNode 3, sampleNode 5] } := by decide
  exact signNext_eq_ok.mpr ⟨_, hchange, nofun, validate_widened, rfl⟩

/-- A network that has just been made. -/
def sampleStart : Admin (nodeId sampleRoot) Bool := start (.text (policyText bareOffer.policy))

/-- The edit that began first settles last, over the directory that was added meanwhile; and both are
guarded if it keeps one. -/
theorem run_sampleEvents (edit : PolicyEdit) (next : Held (nodeId sampleRoot)) {offer : Candidate}
    (hbefore : edit.before (sampleNode 9) (.ok bareHeld) = .ok ())
    (hsign : signNext sampleRoot sampleTtl (edit.guarded false) (some listingHeld) 5 = .ok offer.policy)
    (hnext : next.signed = offer.policy) :
    ∃ s t : Admin (nodeId sampleRoot) Bool,
      run (step "policy.json" sampleRoot (sampleNode 9)) sampleStart (sampleEvents edit) = some s ∧
      read "policy.json" (nodeId sampleRoot) s.store.file = .ok (some listingHeld) ∧
      run (step "policy.json" sampleRoot (sampleNode 9)) s (settling true 5 offer) = some t ∧
      read "policy.json" (nodeId sampleRoot) t.store.file = .ok (some next) ∧
      ((∀ q, edit.change listingHeld.policy = .ok q → q.directories ≠ []) →
        Along (step "policy.json" sampleRoot (sampleNode 9)) (Guarded "policy.json" sampleRoot)
          sampleStart (sampleEvents edit ++ settling true 5 offer)) := by
  have hadd : (PolicyEdit.directoryAdd (sampleNode 3)).before (sampleNode 9) (.ok bareHeld) = .ok () :=
    rfl
  obtain ⟨s₁, hrun₁, hstore₁, htrue₁, hfalse₁⟩ := run_beginning (s := sampleStart) (i := true)
    edit sampleTtl rfl read_bare hbefore
  have hread₁ : read "policy.json" (nodeId sampleRoot) s₁.store.file = .ok (some bareHeld) := by
    rw [hstore₁]
    exact read_bare
  obtain ⟨s₂, hrun₂, hstore₂, hfalse₂, htrue₂⟩ := run_beginning (s := s₁) (i := false)
    (.directoryAdd (sampleNode 3)) sampleTtl (hfalse₁ false nofun) hread₁ hadd
  have hstore : s₂.store = sampleStart.store := hstore₂.trans hstore₁
  have hread₂ : read "policy.json" (nodeId sampleRoot) s₂.store.file = .ok (some bareHeld) := by
    rw [hstore]
    exact read_bare
  have hlisted : (!bareHeld.signed.head.head.directories.isEmpty) = false := rfl
  rw [hlisted] at htrue₁ hfalse₂
  have hlisting : listingHeld.signed = listingOffer.policy := rfl
  obtain ⟨s₃, hrun₃, -, hread₃, hlock₃, hother₃⟩ := run_settling (sampleNode 9) (s := s₂) hfalse₂
    (by rw [hstore]; rfl) (by rw [hstore]; rfl) hread₂ sign_listing hlisting (by decide)
  obtain ⟨hstage₃, hcalls₃⟩ := hother₃ true nofun
  have htrue₃ : s₃.stage true = .signs edit sampleTtl false :=
    hstage₃.trans ((htrue₂ true nofun).trans htrue₁)
  obtain ⟨t, hrun, -, hread, -⟩ := run_settling (sampleNode 9) (s := s₃) htrue₃
    (hcalls₃.trans (by rw [hstore]; rfl)) hlock₃ hread₃ hsign hnext (by decide)
  have hrun₁₂₃ := run_append.mpr ⟨s₁, hrun₁, run_append.mpr ⟨s₂, hrun₂, hrun₃⟩⟩
  refine ⟨s₃, t, hrun₁₂₃, hread₃, hrun, hread, fun hkeeps => ?_⟩
  have hbegins : ∀ (i : Bool) (e : PolicyEdit) (s : Admin (nodeId sampleRoot) Bool),
      Along (step "policy.json" sampleRoot (sampleNode 9)) (Guarded "policy.json" sampleRoot) s
        (beginning i e sampleTtl) := fun i e s =>
    ⟨trivial, fun _ _ => ⟨trivial, fun _ _ => ⟨trivial, fun _ _ => trivial⟩⟩⟩
  have hsettles : ∀ (i : Bool) (c : Candidate) (s : Admin (nodeId sampleRoot) Bool),
      Guarded "policy.json" sampleRoot s (.signs i 5 c) →
      Along (step "policy.json" sampleRoot (sampleNode 9)) (Guarded "policy.json" sampleRoot) s
        (settling i 5 c) := fun i c s hs =>
    ⟨hs, fun _ _ => ⟨trivial, fun _ _ => ⟨trivial, fun _ _ => ⟨trivial, fun _ _ =>
      ⟨trivial, fun _ _ => ⟨trivial, fun _ _ => trivial⟩⟩⟩⟩⟩⟩
  refine along_append.mpr ⟨along_append.mpr ⟨hbegins _ _ _, fun u hu => ?_⟩, fun u hu => ?_⟩
  · obtain rfl := Option.some.inj (hrun₁.symm.trans hu)
    refine along_append.mpr ⟨hbegins _ _ _, fun v hv => hsettles _ _ _ ?_⟩
    obtain rfl := Option.some.inj (hrun₂.symm.trans hv)
    -- nothing is listed yet
    intro e ttl h q _ hh hdirs _
    obtain rfl := Option.some.inj (Except.ok.inj (hread₂.symm.trans hh))
    exact absurd rfl hdirs
  · obtain rfl := Option.some.inj (hrun₁₂₃.symm.trans hu)
    refine hsettles _ _ _ fun e ttl h q hstage hh _ hchange => ?_
    obtain rfl := Option.some.inj (Except.ok.inj (hread₃.symm.trans hh))
    rw [htrue₃] at hstage
    cases hstage
    exact hkeeps q hchange

/-- The list of directories becomes empty: the edit that found no directory to keep drops the one added
meanwhile. -/
theorem directories_dropped : ¬∀ (before after : List (EditEvent Bool))
    (s t : Admin (nodeId sampleRoot) Bool) (a b : Held (nodeId sampleRoot)),
    run (step "policy.json" sampleRoot (sampleNode 9)) sampleStart before = some s →
    run (step "policy.json" sampleRoot (sampleNode 9)) s after = some t →
    read "policy.json" (nodeId sampleRoot) s.store.file = .ok (some a) →
    read "policy.json" (nodeId sampleRoot) t.store.file = .ok (some b) →
    a.policy.directories ≠ [] → b.policy.directories ≠ [] := by
  intro hall
  obtain ⟨s, t, hs, ha, ht, hb, -⟩ := run_sampleEvents
    (.directoryRm (sampleNode 3)) emptiedHeld rfl sign_emptied rfl
  exact hall _ _ s t _ _ hs ht ha hb (by decide) rfl

/-- Two edits that add directories, one begun before the other's: once some are listed, some are. -/
theorem edits_linearize_sample : ∃ s t : Admin (nodeId sampleRoot) Bool,
    run (step "policy.json" sampleRoot (sampleNode 9)) sampleStart
      (sampleEvents (.directoryAdd (sampleNode 5))) = some s ∧
    run (step "policy.json" sampleRoot (sampleNode 9)) s (settling true 5 widenedOffer) = some t ∧
    ∃ a b, read "policy.json" (nodeId sampleRoot) s.store.file = .ok (some a) ∧
      read "policy.json" (nodeId sampleRoot) t.store.file = .ok (some b) ∧
      a.policy.directories ≠ [] ∧ b.policy.directories ≠ [] := by
  obtain ⟨s, t, hs, ha, ht, hb, hguarded⟩ := run_sampleEvents
    (.directoryAdd (sampleNode 5)) widenedHeld rfl sign_widened rfl
  have halong := hguarded fun q hq => by
    have hchange : (PolicyEdit.directoryAdd (sampleNode 5)).change listingHeld.policy =
        .ok { listing with directories := [sampleNode 3, sampleNode 5] } := by decide
    obtain rfl := Except.ok.inj (hchange.symm.trans hq)
    exact List.cons_ne_nil _ _
  obtain ⟨-, -, -, -, hdirs⟩ := edits_linearize "policy.json" sampleRoot (sampleNode 9) _ _ read_bare
    _ t (run_append.mpr ⟨s, hs, ht⟩)
  have hlisted : listingHeld.policy.directories ≠ [] := by decide
  exact ⟨s, t, hs, ht, _, _, ha, hb, hlisted,
    hdirs (along_iff.mp halong) _ _ s _ _ rfl hs ha hb hlisted⟩

end Sample

end Admin

end Wires
