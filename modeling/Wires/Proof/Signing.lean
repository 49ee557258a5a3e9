import Wires.Proof.Encoding
import Wires.Proof.Items

/-!
# Signing a policy

What `SignedPolicy::verify` checks, as one condition (`verify_eq_ok`), and
that what `sign_with` signs passes it (`verify_signWith`): the items are in
key order and rebuild the policy, the head commits to them, and every entry,
kept or new, verifies on its own. `signAfter_spec` is the whole contract of an
edit.
-/

namespace Wires

namespace SignedPolicy

theorem ordered_of_toPolicy {s : SignedPolicy} {p : Policy} (h : s.toPolicy = .ok p) :
    Ordered s.items := (Policy.fromItems_eq_ok.mp h).1

/-- A name has at most one entry. -/
theorem entry_unique {s : SignedPolicy} (h : Ordered s.items) {e f : SignedEntry}
    (he : e ∈ s.entries) (hf : f ∈ s.entries) (hn : e.name = f.name) : e = f := by
  have hs := h.entries
  rw [← s.entries_eq] at hs
  have hnd : (s.entries.map (·.name)).Nodup := hs.imp ne_of_lt
  exact List.inj_on_of_nodup_map hnd he hf hn

variable [Crypto]

/-- What a signed policy that verifies is. -/
theorem verify_eq_ok {s : SignedPolicy} {root : NodeId} {u : Unit} :
    s.verify root = .ok u ↔ s.head.verify root = .ok () ∧ ∃ p, s.toPolicy = .ok p ∧
      ItemsHash.of s.items = s.head.head.itemsHash ∧
      p.settings.freshSecs = s.head.head.freshSecs ∧
      (∀ e ∈ s.entries, e.fabric = s.head.head.fabric ∧ e.version ≤ s.head.head.version) ∧
      (∀ e ∈ s.entries, e.verify root = .ok ()) ∧ p.validate = .ok () := by
  simp [verify, checkItems, checkEntryVersion_eq_ok]

theorem ordered_of_verify {s : SignedPolicy} {root : NodeId} (h : s.verify root = .ok ()) :
    Ordered s.items := by
  obtain ⟨-, p, hp, -⟩ := verify_eq_ok.mp h
  exact ordered_of_toPolicy hp

end SignedPolicy

namespace Policy

theorem nodup_directories {p : Policy} (h : p.validate = .ok ()) : p.directories.Nodup := by
  simp only [validate, bind_eq_ok, refuse_eq_ok, firstRepeat_nil_eq_none, exists_const] at h
  exact h.1

/-! ## Kept entries -/

theorem get?_keptEntries {prev : SignedPolicy} (h : Ordered prev.items) {name : ServiceName}
    {e : SignedEntry} :
    (keptEntries (some prev)).get? name = some e ↔ e ∈ prev.entries ∧ e.name = name := by
  have hs := h.entries
  rw [← prev.entries_eq] at hs
  rw [SortedMap.get?_eq_some_iff, keptEntries, SortedMap.entries_collect]
  · simp only [List.mem_map, Prod.mk.injEq]
    constructor
    · rintro ⟨f, hf, rfl, rfl⟩
      exact ⟨hf, rfl⟩
    · rintro ⟨he, rfl⟩
      exact ⟨e, he, rfl, rfl⟩
  · rwa [List.map_map]

variable [Crypto]

section

variable (p : Policy) (root : NodeIdentity) (kept : SortedMap ServiceName SignedEntry)
  (name : ServiceName) (svc : Service)

/-- An entry of the new policy is the kept one, or one signed now. -/
theorem entryFor_cases :
    (∃ e, kept.get? name = some e ∧ e.isFor p.fabric name svc = true ∧ e.version ≤ p.version ∧
      p.entryFor root kept name svc = e) ∨
    ((∀ e, kept.get? name = some e → ¬(e.isFor p.fabric name svc = true ∧ e.version ≤ p.version)) ∧
      p.entryFor root kept name svc = SignedEntry.sign root p.version name svc) := by
  unfold entryFor
  cases hk : kept.get? name with
  | none => exact .inr ⟨nofun, rfl⟩
  | some e =>
    by_cases h : e.isFor p.fabric name svc = true ∧ e.version ≤ p.version
    · exact .inl ⟨e, rfl, h.1, h.2, if_pos h⟩
    · refine .inr ⟨fun e' he' => ?_, if_neg h⟩
      cases he'
      exact h

variable {p root} in
theorem entryFor_isFor (hr : nodeId root = p.fabric) :
    (p.entryFor root kept name svc).isFor p.fabric name svc = true ∧
      (p.entryFor root kept name svc).version ≤ p.version := by
  obtain ⟨e, -, hfor, hv, he⟩ | ⟨-, he⟩ :=
    entryFor_cases p root kept name svc
  · rw [he]
    exact ⟨hfor, hv⟩
  · rw [he]
    exact ⟨SignedEntry.isFor_iff.mpr ⟨hr, rfl, rfl⟩, UInt64.le_refl _⟩

end

/-! ## Signing -/

variable {p : Policy} {root : NodeIdentity} {previous : Option SignedPolicy} {s : SignedPolicy}

/-- What `sign_with` makes. -/
def signed (p : Policy) (root : NodeIdentity) (previous : Option SignedPolicy) : SignedPolicy :=
  let items := p.flatten (p.signedEntries root previous)
  { head := ⟨p.headOver items, .ed25519,
      Crypto.sign root ((p.headOver items).signedBytes .ed25519)⟩
    items }

theorem signWith_eq_ok : p.signWith root previous = .ok s ↔
    nodeId root = p.fabric ∧ p.validate = .ok () ∧ s = p.signed root previous := by
  simp only [signWith, bind_eq_ok, ensure_eq_ok, items_eq_ok, PolicyHead.sign_eq_ok, pure_eq_ok,
    exists_const]
  constructor
  · rintro ⟨hr, _, hv, items, ⟨-, rfl⟩, head, ⟨-, -, rfl⟩, rfl⟩
    exact ⟨hr, hv, rfl⟩
  · rintro ⟨hr, hv, rfl⟩
    exact ⟨hr, (), hv, _, ⟨hr, rfl⟩, _, ⟨hr, nodup_directories hv, rfl⟩, rfl⟩

theorem entries_signed : (p.signed root previous).entries = p.signedEntries root previous := by
  rw [SignedPolicy.entries_eq, signed, flatten_entry?]

/-- The entries of a signed policy are its services', in name order. -/
theorem signedEntries_map (hr : nodeId root = p.fabric) :
    (p.signedEntries root previous).map (fun e => (e.name, e.service)) = p.services.entries := by
  rw [signedEntries, List.map_map]
  refine (List.map_congr_left fun e _ => ?_).trans (List.map_id _)
  have h := SignedEntry.isFor_iff.mp (entryFor_isFor (keptEntries previous) e.1 e.2 hr).1
  exact Prod.ext h.2.1 h.2.2

/-- A signed policy is rebuilt as the policy signed. -/
theorem toPolicy_signed (hr : nodeId root = p.fabric) :
    (p.signed root previous).toPolicy = .ok p :=
  fromItems_flatten (signedEntries_map hr) ⟨rfl, rfl, rfl, rfl, rfl⟩

theorem mem_signedEntries (hr : nodeId root = p.fabric) {e : SignedEntry}
    (he : e ∈ p.signedEntries root previous) :
    (e.name, e.service) ∈ p.services.entries ∧ e.fabric = p.fabric ∧ e.version ≤ p.version ∧
      e = p.entryFor root (keptEntries previous) e.name e.service := by
  obtain ⟨⟨name, svc⟩, hm, rfl⟩ := List.mem_map.mp he
  have h := entryFor_isFor (keptEntries previous) name svc hr
  obtain ⟨hf, hn, hs⟩ := SignedEntry.isFor_iff.mp h.1
  simp only [hn, hs]
  exact ⟨hm, hf, h.2, trivial⟩

/-- What `sign_with` signs verifies, when what it keeps from does. -/
theorem verify_signed (hr : nodeId root = p.fabric) (hv : p.validate = .ok ())
    (hprev : ∀ prev ∈ previous, ∃ r, prev.verify r = .ok ()) :
    (p.signed root previous).verify (nodeId root) = .ok () := by
  refine SignedPolicy.verify_eq_ok.mpr ⟨?_, p, toPolicy_signed hr, rfl, rfl, ?_, ?_, hv⟩
  · exact SignedPolicyHead.verify_eq_ok.mpr
      ⟨rfl, rfl, hr.symm, Crypto.verify_sign _ _, nodup_directories hv⟩
  · intro e he
    rw [entries_signed] at he
    obtain ⟨-, hf, hle, -⟩ := mem_signedEntries hr he
    exact ⟨hf, hle⟩
  · intro e he
    rw [entries_signed] at he
    obtain ⟨-, hf, -, heq⟩ := mem_signedEntries hr he
    obtain ⟨e', hk, hfor, -, he'⟩ | ⟨-, he'⟩ :=
      entryFor_cases p root (keptEntries previous) e.name e.service
    · -- a kept entry verified under its own root, and that root is this one
      rw [heq, he']
      cases previous with
      | none => simp [keptEntries, SortedMap.get?] at hk
      | some prev =>
        obtain ⟨r, hvr⟩ := hprev prev rfl
        obtain ⟨-, _, -, -, -, -, hes, -⟩ := SignedPolicy.verify_eq_ok.mp hvr
        have hmem := ((get?_keptEntries (SignedPolicy.ordered_of_verify hvr)).mp hk).1
        have hve := hes e' hmem
        obtain ⟨-, -, hfr, -⟩ := SignedEntry.verify_eq_ok.mp hve
        have hfab := (SignedEntry.isFor_iff.mp hfor).1
        rw [hr, ← hfab, hfr]
        exact hve
    · rw [heq, he']
      exact SignedEntry.verify_sign _ _ _ _

/-- The email patterns of a policy's matchers are results of parsing. -/
def Parsed (p : Policy) : Prop := ∀ e ∈ p.roles.entries, ∀ m ∈ e.2, m.Parsed

/-- A policy signed as the first there is. -/
theorem verify_signed_none (hr : nodeId root = p.fabric) (hv : p.validate = .ok ()) :
    (p.signed root none).verify (nodeId root) = .ok () :=
  verify_signed hr hv fun _ h => absurd h (Option.not_mem_none _)


theorem parsed_signed (h : p.Parsed) : (p.signed root previous).Parsed := by
  intro i hi
  simp only [signed, flatten, List.mem_append, List.mem_map, List.mem_singleton] at hi
  rcases hi with ⟨e, he, rfl⟩ | ⟨_, _, rfl⟩ | ⟨_, _, rfl⟩ | ⟨_, _, rfl⟩ | ⟨_, _, rfl⟩ | rfl
  · exact h e he
  all_goals trivial

/-- **An edit.** Signing a valid policy after any verified one gives a policy that verifies, with
its items strictly in key order, that is rebuilt as the policy signed, also from its JSON; each
entry is the previous one of the same network, name and body if that is not too new, else one
signed at the new version. -/
theorem signAfter_spec (p : Policy) (root : NodeIdentity) (previous : SignedPolicy) (r : NodeId)
    (hvalid : p.validate = .ok ()) (hroot : nodeId root = p.fabric)
    (hprev : previous.verify r = .ok ()) :
    ∃ s, p.signAfter root previous = .ok s ∧ s.verify (nodeId root) = .ok () ∧
      (s.items.map Item.key).Pairwise (· < ·) ∧ s.toPolicy = .ok p ∧
      (p.Parsed → readText (jsonText s) = some s ∧ readText (canonicalText s) = some s) ∧
      ∀ e ∈ s.entries,
        (∀ e' ∈ previous.entries, e'.fabric = p.fabric → e'.name = e.name →
          e'.service = e.service → e'.version ≤ p.version → e = e') ∧
        ((∀ e' ∈ previous.entries, e'.fabric = p.fabric → e'.name = e.name →
          e'.service = e.service → ¬e'.version ≤ p.version) →
            e = SignedEntry.sign root p.version e.name e.service) := by
  have hver : (p.signed root (some previous)).verify (nodeId root) = .ok () :=
    verify_signed hroot hvalid fun prev hp => by
      cases hp
      exact ⟨r, hprev⟩
  have hord := SignedPolicy.ordered_of_verify hprev
  refine ⟨p.signed root (some previous), signWith_eq_ok.mpr ⟨hroot, hvalid, rfl⟩, hver,
    SignedPolicy.ordered_of_verify hver, toPolicy_signed hroot, fun hp => ?_, fun e he => ?_⟩
  · have hr : Reads (p.signed root (some previous)) := reads_signedPolicy (parsed_signed hp)
    exact ⟨hr.text, hr.canonical⟩
  · rw [entries_signed] at he
    obtain ⟨-, -, -, heq⟩ := mem_signedEntries hroot he
    obtain ⟨k, hk, hfor, hle, hek⟩ | ⟨hno, hnew⟩ :=
      entryFor_cases p root (keptEntries (some previous)) e.name e.service
    · obtain ⟨hkmem, hkname⟩ := (get?_keptEntries hord).mp hk
      obtain ⟨hkf, -, hks⟩ := SignedEntry.isFor_iff.mp hfor
      refine ⟨fun e' he' _ hn _ _ => ?_, fun hnone => ?_⟩
      · rw [heq, hek]
        exact SignedPolicy.entry_unique hord hkmem he' (hkname.trans hn.symm)
      · exact absurd hle (hnone k hkmem hkf hkname hks)
    · refine ⟨fun e' he' hf hn hs hle => ?_, fun _ => heq.trans hnew⟩
      exact absurd ⟨SignedEntry.isFor_iff.mpr ⟨hf, hn, hs⟩, hle⟩
        (hno e' ((get?_keptEntries hord).mpr ⟨he', hn⟩))

end Policy

/-! ## A sample network -/

section Sample

attribute [local instance] Crypto.plain

/-- The root of a small network, and its members' keys. -/
def sampleRoot : NodeIdentity := (1 : UInt8)

def sampleNode (n : UInt8) : NodeId := Bytes.fill 32 n

def sampleName : ServiceName := ⟨"db", by decide⟩

def sampleRole : RoleName := ⟨"staff", by decide⟩

def sampleService (hosts : List NodeId) : Service := ⟨"orders", [], hosts⟩

/-- A policy of one service, at a version, with node 3 as the one directory. -/
def samplePolicy (version : StateVersion) (hosts : List NodeId) : Policy :=
  { Policy.new (nodeId sampleRoot) with
    version
    notAfter := 10000
    directories := [sampleNode 3]
    services := ⟨[(sampleName, sampleService hosts)], by simp⟩ }

/-- The policy of version 1, with node 2 as the service's host. -/
def sampleSigned : SignedPolicy := (samplePolicy 1 [sampleNode 2]).signed sampleRoot none

theorem validate_samplePolicy : (samplePolicy 1 [sampleNode 2]).validate = .ok () := by decide

theorem verify_sampleSigned : sampleSigned.verify (nodeId sampleRoot) = .ok () :=
  Policy.verify_signed_none rfl validate_samplePolicy

/-- A policy whose one issuer gives tokens to one audience. -/
def idpPolicy (version : StateVersion) (audience : Audience) : Policy :=
  { samplePolicy version [] with
    roles := .single sampleRole [.new "idp"]
    services := .single sampleName ⟨"orders", [sampleRole], [sampleNode 2]⟩
    issuers := .single "idp" ⟨audience, [audience]⟩ }

def idpSigned (version : StateVersion) (audience : Audience) : SignedPolicy :=
  (idpPolicy version audience).signed sampleRoot none

/-- Version 1 accepts tokens of "cli", version 2 those of "web". -/
theorem verify_idpSigned : (idpSigned 1 "cli").verify (nodeId sampleRoot) = .ok () ∧
    (idpSigned 2 "web").verify (nodeId sampleRoot) = .ok () :=
  ⟨Policy.verify_signed_none rfl (by decide), Policy.verify_signed_none rfl (by decide)⟩

/-- Anyone the issuer verified, with a verified email. -/
def samplePrincipal : Principal := ⟨"idp", "7", some "a@x", none, [], 100⟩

theorem parsed_samplePolicy {version : StateVersion} {hosts : List NodeId} :
    (samplePolicy version hosts).Parsed := fun _ he => absurd he List.not_mem_nil

theorem parsed_sampleSigned : sampleSigned.Parsed := Policy.parsed_signed parsed_samplePolicy

theorem signAfter_sample : ∃ s,
    (samplePolicy 2 [sampleNode 2]).signAfter sampleRoot sampleSigned = .ok s ∧
      s.verify (nodeId sampleRoot) = .ok () := by
  obtain ⟨s, h, hv, -⟩ := Policy.signAfter_spec (samplePolicy 2 [sampleNode 2]) sampleRoot
    sampleSigned (nodeId sampleRoot) (by decide) rfl verify_sampleSigned
  exact ⟨s, h, hv⟩

end Sample

end Wires
