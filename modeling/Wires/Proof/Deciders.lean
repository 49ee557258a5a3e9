import Wires.Impl.Gate
import Wires.Proof.Store

/-!
# The deciders agree

A directory cuts a caller's view from a policy's items, a host decides a call
on the maps rebuilt from them. Over a policy that verifies, both read the same
bans (`bannedIn_iff`), roles (`roles_of_toPolicy`) and entries
(`get?_services`), so a view lists exactly what `authorize` answers
(`mem_viewFor_iff_authorize`), and the host's gate admits on top of that what
only the host knows (`isOk_admitCall_iff`).
-/

namespace Wires

/-! ## Items and maps -/

section

variable {s : SignedPolicy} {p : Policy}

/-- The settings of a rebuilt policy are the only part not named here. -/
theorem ofItems_of_toPolicy (h : s.toPolicy = .ok p) :
    ∃ settings, p = .ofItems s.head.head s.items settings := by
  obtain ⟨-, settings, -, hp⟩ := Policy.fromItems_eq_ok.mp h
  exact ⟨settings, hp⟩

theorem roles_of_toPolicy (h : s.toPolicy = .ok p) : p.roles = s.rolesOf := by
  obtain ⟨settings, rfl⟩ := ofItems_of_toPolicy h
  rw [s.rolesOf_eq]
  rfl

/-- A service of the rebuilt policy is an entry's. -/
theorem get?_services (h : s.toPolicy = .ok p) {name : ServiceName} {svc : Service} :
    p.services.get? name = some svc ↔ ∃ e ∈ s.entries, e.name = name ∧ e.service = svc := by
  have hord := (SignedPolicy.ordered_of_toPolicy h).entries
  obtain ⟨settings, rfl⟩ := ofItems_of_toPolicy h
  rw [SortedMap.get?_eq_some_iff, Policy.ofItems, SortedMap.entries_collect, s.entries_eq]
  · simp [List.mem_map, -List.mem_filterMap]
  · rwa [List.map_map]

theorem keys_bans (h : s.toPolicy = .ok p) : p.bans.keys = s.items.filterMap Item.ban? := by
  have hord := (SignedPolicy.ordered_of_toPolicy h).bans
  obtain ⟨settings, rfl⟩ := ofItems_of_toPolicy h
  rw [SortedMap.keys, Policy.ofItems, SortedMap.entries_collect]
  · simp [List.map_map, Function.comp_def]
  · simpa [List.map_map, Function.comp_def] using hord

theorem keys_personBans (h : s.toPolicy = .ok p) :
    p.personBans.keys = s.items.filterMap Item.personBan? := by
  have hord := (SignedPolicy.ordered_of_toPolicy h).personBans
  obtain ⟨settings, rfl⟩ := ofItems_of_toPolicy h
  rw [SortedMap.keys, Policy.ofItems, SortedMap.entries_collect]
  · simp [List.map_map, Function.comp_def]
  · simpa [List.map_map, Function.comp_def] using hord

theorem bansNode_iff (h : s.toPolicy = .ok p) {node : NodeId} :
    p.bansNode node = true ↔ Item.ban node ∈ s.items := by
  rw [Policy.bansNode, SortedMap.containsKey_iff, keys_bans h, List.mem_filterMap]
  constructor
  · rintro ⟨i, hi, hk⟩
    cases i <;> simp_all [Item.ban?]
  · exact fun hm => ⟨_, hm, rfl⟩

theorem bansPerson_iff (h : s.toPolicy = .ok p) {principal : Principal} :
    p.bansPerson principal = true ↔
      ∃ k, Item.personBan k ∈ s.items ∧ k.matches principal = true := by
  rw [Policy.bansPerson, keys_personBans h, List.any_eq_true]
  refine exists_congr fun k => and_congr_left fun _ => ?_
  rw [List.mem_filterMap]
  constructor
  · rintro ⟨i, hi, hk⟩
    cases i <;> simp_all [Item.personBan?]
  · exact fun hm => ⟨_, hm, rfl⟩

/-- The items and the maps ban the same callers. -/
theorem bannedIn_iff (h : s.toPolicy = .ok p) (node : NodeId) (principal : Option Principal) :
    s.bannedIn node principal = true ↔
      p.bansNode node = true ∨ principal.any p.bansPerson = true := by
  rw [SignedPolicy.bannedIn, List.any_eq_true, bansNode_iff h]
  constructor
  · rintro ⟨i, hi, hb⟩
    cases i with
    | ban k => exact .inl (by simpa [of_decide_eq_true hb] using hi)
    | personBan k =>
      cases principal with
      | none => cases hb
      | some who => exact .inr ((bansPerson_iff h).mpr ⟨k, hi, hb⟩)
    | role | service | issuer | settings => cases hb
  · rintro (hn | hp)
    · exact ⟨_, hn, decide_eq_true rfl⟩
    · cases principal with
      | none => cases hp
      | some who =>
        obtain ⟨k, hk, hm⟩ := (bansPerson_iff h).mp hp
        exact ⟨_, hk, hm⟩

/-! ## Views -/

/-- The role a call runs under is one of those allowed, and admits the caller. -/
theorem roleAdmits_of_find? {allow : List RoleName} {principal : Option Principal} {role : RoleName}
    (h : (allow.find? fun r => p.roleAdmits r principal) = some role) :
    role ∈ allow ∧ p.roleAdmits role principal = true :=
  ⟨List.mem_of_find?_eq_some h, List.find?_some (p := fun r => p.roleAdmits r principal) h⟩

/-- Some role allowed admits the caller exactly when there is a first one. -/
theorem exists_find?_roleAdmits {allow : List RoleName} {principal : Option Principal} :
    (∃ role, (allow.find? fun r => p.roleAdmits r principal) = some role) ↔
      ∃ r ∈ allow, p.roleAdmits r principal = true := by
  rw [← Option.isSome_iff_exists, List.find?_isSome]

/-- What a view lists: the entries that admit the caller, unless the caller is banned. -/
theorem mem_viewFor (h : s.toPolicy = .ok p) {node : NodeId} {principal : Option Principal}
    {query : Option String} {e : SignedEntry} :
    e ∈ (s.viewFor node principal query).entries ↔
      p.bansNode node = false ∧ principal.any p.bansPerson = false ∧ e ∈ s.entries ∧
      (query.all fun q => serviceMatches e.name e.service (asciiLower q)) = true ∧
      ∃ r ∈ e.service.allow, p.roleAdmits r principal = true := by
  have hban := bannedIn_iff h node principal
  unfold SignedPolicy.viewFor
  split
  · rename_i hb
    rcases hban.mp hb with hn | hp
    · simp [hn]
    · simp [hp]
  · rename_i hb
    rw [hban, not_or, Bool.not_eq_true, Bool.not_eq_true] at hb
    simp only [List.mem_filter, List.any_eq_true, ← roles_of_toPolicy h, hb, true_and, and_assoc]
    cases query with
    | none => simp only [Option.map_none, Option.all_none, Policy.roleAdmits]
    | some q => simp only [Option.map_some, Option.all_some, Policy.roleAdmits]

/-- **What a caller sees is what it may call.** -/
theorem mem_viewFor_iff_authorize (h : s.toPolicy = .ok p) {node : NodeId}
    {principal : Option Principal} {name : ServiceName} :
    (∃ e ∈ (s.viewFor node principal none).entries, e.name = name) ↔
      isOk (authorize p node principal name) = true := by
  simp only [mem_viewFor h, isOk_iff, authorize_eq_ok, get?_services h]
  constructor
  · rintro ⟨e, ⟨hn, hp, he, -, r, hr, hra⟩, hname⟩
    obtain ⟨role, hfind⟩ := exists_find?_roleAdmits.mpr ⟨r, hr, hra⟩
    exact ⟨role, hn, hp, e.service, ⟨e, he, hname, rfl⟩, hfind⟩
  · rintro ⟨role, hn, hp, _, ⟨e, he, hname, rfl⟩, hfind⟩
    exact ⟨e, ⟨hn, hp, he, Option.all_none, role, roleAdmits_of_find? hfind⟩, hname⟩

/-- A role that admits a person is one some role of the policy admits. -/
theorem checkAdmitted_of_authorize {node : NodeId} {principal : Principal} {name : ServiceName}
    {role : RoleName} (h : authorize p node (some principal) name = .ok role) :
    checkAdmitted p node principal = .ok () := by
  obtain ⟨hn, hp, svc, -, hfind⟩ := authorize_eq_ok.mp h
  have hrole := (roleAdmits_of_find? hfind).2
  cases hms : p.roles.get? role with
  | none =>
    rw [Policy.roleAdmits, hms] at hrole
    cases hrole
  | some ms =>
    rw [Policy.roleAdmits, hms] at hrole
    refine checkAdmitted_eq_ok.mpr ⟨hn, ?_, hp, ?_⟩
    · intro he
      simp [admits, he] at hrole
    · have hmem := List.mem_map_of_mem (f := Prod.snd) (SortedMap.get?_eq_some_iff.mp hms)
      exact List.any_eq_true.mpr ⟨ms, hmem, hrole⟩

/-- A query selects from a view what `View::matching` does. -/
theorem viewFor_some (s : SignedPolicy) (node : NodeId) (principal : Option Principal)
    (q : String) :
    (s.viewFor node principal (some q)).entries =
      (s.viewFor node principal none).matching q := by
  unfold SignedPolicy.viewFor View.matching
  split
  · rfl
  · simp only [Option.map_some, Option.all_some, Option.map_none, Option.all_none,
      List.filter_true, List.filter_filter, Bool.and_comm]

theorem viewFor_head (s : SignedPolicy) (node : NodeId) (principal : Option Principal)
    (query : Option String) : (s.viewFor node principal query).head = s.head := by
  unfold SignedPolicy.viewFor
  split <;> rfl

theorem viewFor_sublist (s : SignedPolicy) (node : NodeId) (principal : Option Principal)
    (query : Option String) : (s.viewFor node principal query).entries.Sublist s.entries := by
  unfold SignedPolicy.viewFor
  split
  · exact List.nil_sublist _
  · exact List.filter_sublist.trans List.filter_sublist

end

section

variable [Crypto] {s : SignedPolicy} {root : NodeId}

/-- Every view of a policy that verifies does. -/
theorem verify_viewFor (h : s.verify root = .ok ()) (node : NodeId)
    (principal : Option Principal) (query : Option String) :
    (s.viewFor node principal query).verify root = .ok () := by
  obtain ⟨hhead, p, hp, -, -, hversion, hsigned, -⟩ := SignedPolicy.verify_eq_ok.mp h
  have hsub := viewFor_sublist s node principal query
  have hsorted := (SignedPolicy.ordered_of_toPolicy hp).entries
  rw [← s.entries_eq] at hsorted
  rw [View.verify_eq_ok, viewFor_head]
  refine ⟨hhead, hsorted.sublist (hsub.map _), fun e he => ?_⟩
  have hmem := hsub.subset he
  exact ⟨checkEntryVersion_eq_ok.mpr (hversion e hmem), hsigned e hmem⟩

/-! ## The gate -/

section

variable (held : Held root) (config : HostConfig) (me caller : NodeId) (verified : Verified)
  (service : ServiceName) (now : Int64)

/-- The roles `host.json` asks for on top of the policy's. -/
def alsoRequired (config : HostConfig) (service : ServiceName) : List RoleName :=
  ((config.services.get? service).map (·.alsoRequire)).getD []

/-- When the gate admits a call, and as which role. -/
theorem admitCall_iff (a : Admitted) :
    admitCall held config me caller verified service now = .ok a ↔
      checkAdmitted held.policy caller verified.principal = .ok () ∧
      now ≤ held.signed.head.head.notAfter ∧
      held.policy.bansNode me = false ∧
      (∀ r ∈ alsoRequired config service,
        held.policy.roleAdmits r (some verified.principal) = true) ∧
      ∃ e ∈ (held.signed.viewFor caller (some verified.principal) none).entries,
        e.name = service ∧ me ∈ e.service.hosts ∧ ∃ role,
        (e.service.allow.find? fun r =>
          held.policy.roleAdmits r (some verified.principal)) = some role ∧
        a = ⟨role, held.version, verified⟩ := by
  have hord := SignedPolicy.ordered_of_verify held.verified
  rw [admitCall_eq_ok]
  simp only [authorize_eq_ok, mem_viewFor held.typed, Policy.assigns, Policy.service,
    Bool.and_eq_true, Bool.not_eq_true', alsoRequired]
  constructor
  · rintro ⟨hc, hn, ⟨role, ⟨hbn, hbp, svc, hsvc, hfind⟩, rfl⟩, ⟨hme, hassign⟩, hall⟩
    obtain ⟨e, he, hname, rfl⟩ := (get?_services held.typed).mp hsvc
    rw [hsvc, Option.any_some, List.contains_iff_mem] at hassign
    exact ⟨hc, hn, hme, hall, e, ⟨hbn, hbp, he, Option.all_none, role,
      roleAdmits_of_find? hfind⟩, hname, hassign, role, hfind, rfl⟩
  · rintro ⟨hc, hn, hme, hall, e, ⟨hbn, hbp, he, -, -⟩, hname, hhost, role, hfind, rfl⟩
    have hsvc := (get?_services held.typed).mpr ⟨e, he, hname, rfl⟩
    refine ⟨hc, hn, ⟨role, ⟨hbn, hbp, e.service, hsvc, hfind⟩, rfl⟩, ⟨hme, ?_⟩, hall⟩
    rwa [hsvc, Option.any_some, List.contains_iff_mem]

/-- When the gate admits a call. -/
theorem isOk_admitCall_iff :
    isOk (admitCall held config me caller verified service now) = true ↔
      checkAdmitted held.policy caller verified.principal = .ok () ∧
      now ≤ held.signed.head.head.notAfter ∧
      (∃ e ∈ (held.signed.viewFor caller (some verified.principal) none).entries,
        e.name = service ∧ me ∈ e.service.hosts) ∧
      held.policy.bansNode me = false ∧
      ∀ r ∈ alsoRequired config service,
        held.policy.roleAdmits r (some verified.principal) = true := by
  simp only [isOk_iff, admitCall_iff]
  constructor
  · rintro ⟨a, hc, hn, hme, hall, e, he, hname, hhost, -⟩
    exact ⟨hc, hn, ⟨e, he, hname, hhost⟩, hme, hall⟩
  · rintro ⟨hc, hn, ⟨e, he, hname, hhost⟩, hme, hall⟩
    obtain ⟨-, -, -, -, r, hr, hra⟩ := (mem_viewFor held.typed).mp he
    obtain ⟨role, hfind⟩ := exists_find?_roleAdmits.mpr ⟨r, hr, hra⟩
    exact ⟨_, hc, hn, hme, hall, e, he, hname, hhost, role, hfind, rfl⟩

end

/-- **The deciders agree.** Over one signed policy that verifies: a view lists exactly the services
`authorize` answers, the gate admits exactly an admitted caller of an unexpired policy for a
service of its view that this unbanned host runs with the roles `host.json` asks for, under the
first role that admits it, and a query selects from the view, which verifies, what `matching`
does. -/
theorem deciders_agree (s : SignedPolicy) (root : NodeId) (hs : s.verify root = .ok ()) :
    ∃ held : Held root, Held.verify s root = .ok held ∧ s.toPolicy = .ok held.policy ∧
      (∀ (node : NodeId) (principal : Option Principal) (name : ServiceName),
        ((∃ e ∈ (s.viewFor node principal none).entries, e.name = name) ↔
          isOk (authorize held.policy node principal name) = true) ∧
        ∀ who, principal = some who →
          isOk (authorize held.policy node principal name) = true →
          checkAdmitted held.policy node who = .ok ()) ∧
      (∀ (config : HostConfig) (me caller : NodeId) (verified : Verified) (service : ServiceName)
        (now : Int64),
        (isOk (admitCall held config me caller verified service now) = true ↔
          checkAdmitted held.policy caller verified.principal = .ok () ∧
          now ≤ s.head.head.notAfter ∧
          (∃ e ∈ (s.viewFor caller (some verified.principal) none).entries,
            e.name = service ∧ me ∈ e.service.hosts) ∧
          held.policy.bansNode me = false ∧
          ∀ r ∈ alsoRequired config service,
            held.policy.roleAdmits r (some verified.principal) = true) ∧
        ∀ a, admitCall held config me caller verified service now = .ok a →
          ∃ e ∈ (s.viewFor caller (some verified.principal) none).entries, e.name = service ∧
            (e.service.allow.find? fun r =>
              held.policy.roleAdmits r (some verified.principal)) = some a.role) ∧
      ∀ (node : NodeId) (principal : Option Principal),
        (∀ q, (s.viewFor node principal (some q)).entries =
          (s.viewFor node principal none).matching q) ∧
        ∀ query, (s.viewFor node principal query).verify root = .ok () := by
  obtain ⟨held, hheld⟩ := Held.exists_verify.mpr hs
  have heq : held.signed = s := Held.verify_eq_ok.mp hheld
  subst heq
  refine ⟨held, hheld, held.typed, fun node principal name => ⟨?_, ?_⟩, fun config me caller
    verified service now => ⟨?_, fun a ha => ?_⟩, fun node principal => ⟨?_, ?_⟩⟩
  · exact mem_viewFor_iff_authorize held.typed
  · rintro who rfl hok
    obtain ⟨role, hrole⟩ := isOk_iff.mp hok
    exact checkAdmitted_of_authorize hrole
  · exact isOk_admitCall_iff held config me caller verified service now
  · obtain ⟨-, -, -, -, e, he, hname, -, role, hfind, rfl⟩ :=
      (admitCall_iff held config me caller verified service now a).mp ha
    exact ⟨e, he, hname, hfind⟩
  · exact viewFor_some held.signed node principal
  · exact verify_viewFor hs node principal

end

section Sample

attribute [local instance] Crypto.plain

/-- Whoever the issuer verified is staff, and sees the service that staff may call. -/
theorem deciders_agree_sample : ∃ held : Held (nodeId sampleRoot),
    Held.verify (idpSigned 1 "cli") (nodeId sampleRoot) = .ok held ∧
      (∃ e ∈ ((idpSigned 1 "cli").viewFor (sampleNode 4) (some samplePrincipal) none).entries,
        e.name = sampleName) ∧
      checkAdmitted held.policy (sampleNode 4) samplePrincipal = .ok () ∧
      ((idpSigned 1 "cli").viewFor (sampleNode 4) (some samplePrincipal) (some "db")).verify
        (nodeId sampleRoot) = .ok () := by
  obtain ⟨held, hheld, htyped, hlists, -, hviews⟩ :=
    deciders_agree (idpSigned 1 "cli") (nodeId sampleRoot) verify_idpSigned.1
  have hpolicy : held.policy = idpPolicy 1 "cli" := by
    rw [idpSigned, Policy.toPolicy_signed rfl] at htyped
    exact (Except.ok.inj htyped).symm
  have hok : isOk (authorize held.policy (sampleNode 4) (some samplePrincipal) sampleName) = true := by
    rw [hpolicy]
    decide
  obtain ⟨hsees, hadmitted⟩ := hlists (sampleNode 4) (some samplePrincipal) sampleName
  exact ⟨held, hheld, hsees.mpr hok, hadmitted _ rfl hok, (hviews _ _).2 _⟩

end Sample

end Wires
