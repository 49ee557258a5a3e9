import Wires.Impl.SignedPolicy

/-!
# A policy and its items

What the loop of `from_items` builds (`fromItems_eq_ok`): over items strictly
in key order, each map of the policy holds exactly the items of its kind, in
their order. Flattening a policy into items puts them strictly in key order
(`sorted_items`), so a policy is rebuilt from its own items
(`fromItems_items`).
-/

namespace Wires

/-! ## The items of one kind -/

/-- An item's role and its matchers. -/
def Item.role? : Item → Option (RoleName × List Matcher)
  | .role k b => some (k, b)
  | _ => none

/-- An item's service entry. -/
def Item.entry? : Item → Option SignedEntry
  | .service e => some e
  | _ => none

def Item.ban? : Item → Option NodeId
  | .ban k => some k
  | _ => none

def Item.personBan? : Item → Option Person
  | .personBan k => some k
  | _ => none

def Item.issuer? : Item → Option (Issuer × IssuerConfig)
  | .issuer k b => some (k, b)
  | _ => none

def Item.settings? : Item → Option Settings
  | .settings b => some b
  | _ => none

theorem SignedPolicy.entries_eq (s : SignedPolicy) : s.entries = s.items.filterMap Item.entry? := by
  refine congrArg (List.filterMap · s.items) (funext fun i => ?_)
  cases i <;> rfl

theorem SignedPolicy.rolesOf_eq (s : SignedPolicy) :
    s.rolesOf = SortedMap.collect (s.items.filterMap Item.role?) := by
  refine congrArg (fun f => SortedMap.collect (List.filterMap f s.items)) (funext fun i => ?_)
  cases i <;> rfl

/-- The items are strictly in key order. -/
def Ordered (items : List Item) : Prop := (items.map Item.key).Pairwise (· < ·)

theorem checkOrder_eq_ok {items : List Item} {u : Unit} :
    checkOrder items = .ok u ↔ Ordered items := by
  simp [checkOrder, Ordered]

/-- The keys of one kind are in order when the items are. -/
theorem Ordered.filterMap {items : List Item} (h : Ordered items) {α : Type} {f : Item → Option α}
    {r : α → α → Prop} (hr : ∀ i j a b, f i = some a → f j = some b → i.key < j.key → r a b) :
    (items.filterMap f).Pairwise r :=
  List.Pairwise.filterMap f (fun i j hij a ha b hb => hr i j a b ha hb hij)
    (List.pairwise_map.mp h)

theorem Ordered.roles {items : List Item} (h : Ordered items) :
    ((items.filterMap Item.role?).map Prod.fst).Pairwise (· < ·) :=
  List.pairwise_map.mpr (h.filterMap fun i j a b ha hb hij => by
    cases i <;> cases j <;> simp_all [Item.role?, Item.key]
    subst_vars; exact hij)

theorem Ordered.entries {items : List Item} (h : Ordered items) :
    ((items.filterMap Item.entry?).map (·.name)).Pairwise (· < ·) :=
  List.pairwise_map.mpr (h.filterMap fun i j a b ha hb hij => by
    cases i <;> cases j <;> simp_all [Item.entry?, Item.key])

theorem Ordered.bans {items : List Item} (h : Ordered items) :
    (items.filterMap Item.ban?).Pairwise (· < ·) :=
  h.filterMap fun i j a b ha hb hij => by
    cases i <;> cases j <;> simp_all [Item.ban?, Item.key]

theorem Ordered.personBans {items : List Item} (h : Ordered items) :
    (items.filterMap Item.personBan?).Pairwise (· < ·) :=
  h.filterMap fun i j a b ha hb hij => by
    cases i <;> cases j <;> simp_all [Item.personBan?, Item.key]

theorem Ordered.issuers {items : List Item} (h : Ordered items) :
    ((items.filterMap Item.issuer?).map Prod.fst).Pairwise (· < ·) :=
  List.pairwise_map.mpr (h.filterMap fun i j a b ha hb hij => by
    cases i <;> cases j <;> simp_all [Item.issuer?, Item.key]
    subst_vars; exact hij)

/-! ## Rebuilding -/

namespace Policy

/-- The policy of `p`'s own fields with the items of each kind inserted. -/
def withItems (p : Policy) (items : List Item) : Policy :=
  { p with
    roles := (items.filterMap Item.role?).foldl (fun m e => m.insert e.1 e.2) p.roles
    services := (items.filterMap Item.entry?).foldl (fun m e => m.insert e.name e.service)
      p.services
    bans := (items.filterMap Item.ban?).foldl (fun m k => m.insert k ()) p.bans
    personBans := (items.filterMap Item.personBan?).foldl (fun m k => m.insert k ()) p.personBans
    issuers := (items.filterMap Item.issuer?).foldl (fun m e => m.insert e.1 e.2) p.issuers }

/-- The loop of `from_items` inserts the items of each kind in turn, and keeps the last
settings. -/
theorem foldl_addItem (items : List Item) (p : Policy) (st : Option Settings) :
    items.foldl addItem (p, st) =
      (p.withItems items, (items.filterMap Item.settings?).getLast?.or st) := by
  induction items generalizing p st with
  | nil => rfl
  | cons i is ih =>
    rw [List.foldl_cons, addItem.eq_def]
    cases i
    case settings b =>
      rw [ih]
      refine congrArg (Prod.mk _) ?_
      rw [show (Item.settings b :: is).filterMap Item.settings? =
        b :: is.filterMap Item.settings? from rfl, List.getLast?_cons]
      cases (is.filterMap Item.settings?).getLast? <;> rfl
    all_goals exact ih _ _

/-- The policy of a head's fields and its items. -/
def ofItems (head : PolicyHead) (items : List Item) (settings : Settings) : Policy where
  fabric := head.fabric
  version := head.version
  issued := head.issued
  notAfter := head.notAfter
  directories := head.directories
  roles := .collect (items.filterMap Item.role?)
  services := .collect ((items.filterMap Item.entry?).map fun e => (e.name, e.service))
  bans := .collect ((items.filterMap Item.ban?).map fun k => (k, ()))
  personBans := .collect ((items.filterMap Item.personBan?).map fun k => (k, ()))
  issuers := .collect (items.filterMap Item.issuer?)
  settings

/-- `from_items` succeeds on ordered items that hold the settings. -/
theorem fromItems_eq_ok {head : PolicyHead} {items : List Item} {p : Policy} :
    fromItems head items = .ok p ↔ Ordered items ∧
      ∃ settings, (items.filterMap Item.settings?).getLast? = some settings ∧
        p = ofItems head items settings := by
  simp only [fromItems, bind_eq_ok, checkOrder_eq_ok, foldl_addItem, Option.or_none,
    orError_eq_ok, pure_eq_ok, exists_const]
  refine and_congr_right fun _ => exists_congr fun settings => and_congr_right fun _ => ?_
  rw [eq_comm, ofItems, withItems]
  simp only [SortedMap.collect, List.foldl_map]
  rfl

/-! ## Flattening -/

/-- The items of a policy whose service entries are `entries`. -/
def flatten (p : Policy) (entries : List SignedEntry) : List Item :=
  p.roles.entries.map (fun e => .role e.1 e.2) ++
    (entries.map .service ++
    (p.bans.keys.map .ban ++
    (p.personBans.keys.map .personBan ++
    (p.issuers.entries.map (fun e => .issuer e.1 e.2) ++
    [.settings p.settings]))))

/-- The entries `items` puts in a policy. -/
def signedEntries [Crypto] (p : Policy) (root : NodeIdentity) (previous : Option SignedPolicy) :
    List SignedEntry :=
  p.services.entries.map fun e => p.entryFor root (keptEntries previous) e.1 e.2

theorem items_eq_ok [Crypto] {p : Policy} {root : NodeIdentity} {previous : Option SignedPolicy}
    {items : List Item} : p.items root previous = .ok items ↔
      nodeId root = p.fabric ∧ items = p.flatten (p.signedEntries root previous) := by
  simp only [Policy.items, bind_eq_ok, ensure_eq_ok, pure_eq_ok, exists_const, flatten,
    signedEntries, List.map_map, Function.comp_def, eq_comm (a := items)]

section

variable {p : Policy} {es : List SignedEntry}

theorem flatten_role? : (p.flatten es).filterMap Item.role? = p.roles.entries := by
  simp [flatten, List.filterMap_append, List.filterMap_map, Function.comp_def, Item.role?]

theorem flatten_entry? : (p.flatten es).filterMap Item.entry? = es := by
  simp [flatten, List.filterMap_append, List.filterMap_map, Function.comp_def, Item.entry?]

theorem flatten_ban? : (p.flatten es).filterMap Item.ban? = p.bans.keys := by
  simp [flatten, List.filterMap_append, List.filterMap_map, Function.comp_def, Item.ban?]

theorem flatten_personBan? : (p.flatten es).filterMap Item.personBan? = p.personBans.keys := by
  simp [flatten, List.filterMap_append, List.filterMap_map, Function.comp_def, Item.personBan?]

theorem flatten_issuer? : (p.flatten es).filterMap Item.issuer? = p.issuers.entries := by
  simp [flatten, List.filterMap_append, List.filterMap_map, Function.comp_def, Item.issuer?]

theorem flatten_settings? : (p.flatten es).filterMap Item.settings? = [p.settings] := by
  simp [flatten, List.filterMap_append, List.filterMap_map, Function.comp_def, Item.settings?]

theorem pairwise_append_of_kind {as bs : List ItemKey} (k : Nat) (ha : as.Pairwise (· < ·))
    (hb : bs.Pairwise (· < ·)) (hka : ∀ a ∈ as, a.kind = k) (hkb : ∀ b ∈ bs, k < b.kind) :
    (as ++ bs).Pairwise (· < ·) :=
  List.pairwise_append.mpr ⟨ha, hb, fun a hma b hmb =>
    ItemKey.lt_of_kind_lt ((hka a hma).trans_lt (hkb b hmb))⟩

/-- A policy's items are strictly in key order. -/
theorem ordered_flatten (hes : es.map (·.name) = p.services.keys) : Ordered (p.flatten es) := by
  have hroles : (p.roles.entries.map fun e => ItemKey.role e.1).Pairwise (· < ·) := by
    have := p.roles.sorted
    rw [List.pairwise_map] at this ⊢
    exact this.imp ItemKey.role_lt_role.mpr
  have hservices : (es.map fun e => ItemKey.service e.name).Pairwise (· < ·) := by
    have : (es.map (·.name)).Pairwise (· < ·) := hes ▸ p.services.sorted
    rw [List.pairwise_map] at this ⊢
    exact this.imp ItemKey.service_lt_service.mpr
  have hbans : (p.bans.keys.map ItemKey.ban).Pairwise (· < ·) :=
    List.pairwise_map.mpr (List.Pairwise.imp ItemKey.ban_lt_ban.mpr p.bans.sorted)
  have hpersons : (p.personBans.keys.map ItemKey.personBan).Pairwise (· < ·) :=
    List.pairwise_map.mpr (List.Pairwise.imp ItemKey.personBan_lt_personBan.mpr p.personBans.sorted)
  have hissuers : (p.issuers.entries.map fun e => ItemKey.issuer e.1).Pairwise (· < ·) := by
    have := p.issuers.sorted
    rw [List.pairwise_map] at this ⊢
    exact this.imp ItemKey.issuer_lt_issuer.mpr
  rw [Ordered, flatten]
  simp only [List.map_append, List.map_map, Function.comp_def, Item.key, List.map_cons, List.map_nil]
  refine pairwise_append_of_kind 0 hroles ?_ ?_ ?_
  · refine pairwise_append_of_kind 1 hservices ?_ ?_ ?_
    · refine pairwise_append_of_kind 2 hbans ?_ ?_ ?_
      · refine pairwise_append_of_kind 3 hpersons ?_ ?_ ?_
        · refine pairwise_append_of_kind 4 hissuers (List.pairwise_singleton _ _) ?_ ?_
          all_goals simp only [List.forall_mem_map, List.forall_mem_singleton]; simp
        all_goals simp only [List.forall_mem_append, List.forall_mem_map]; simp
      all_goals simp only [List.forall_mem_append, List.forall_mem_map]; simp
    all_goals simp only [List.forall_mem_append, List.forall_mem_map]; simp
  all_goals simp only [List.forall_mem_append, List.forall_mem_map]; simp

theorem collect_keys {α : Type} [LinearOrder α] (m : SortedSet α) :
    SortedMap.collect (m.keys.map fun k => (k, ())) = m := by
  have : m.keys.map (fun k => (k, ())) = m.entries := by
    simp [SortedMap.keys, List.map_map, Function.comp_def]
  rw [this, SortedMap.collect_entries]

/-- A policy is rebuilt from its own items: its fields, and each map from the items of its
kind. -/
theorem fromItems_flatten {head : PolicyHead}
    (hes : es.map (fun e => (e.name, e.service)) = p.services.entries)
    (hh : head.fabric = p.fabric ∧ head.version = p.version ∧ head.issued = p.issued ∧
      head.notAfter = p.notAfter ∧ head.directories = p.directories) :
    fromItems head (p.flatten es) = .ok p := by
  have hnames : es.map (·.name) = p.services.keys := by
    rw [SortedMap.keys, ← hes, List.map_map]
    rfl
  refine fromItems_eq_ok.mpr ⟨ordered_flatten hnames, p.settings, ?_, ?_⟩
  · rw [flatten_settings?]
    rfl
  · obtain ⟨h1, h2, h3, h4, h5⟩ := hh
    rw [ofItems, flatten_role?, flatten_entry?, flatten_ban?, flatten_personBan?, flatten_issuer?,
      hes, SortedMap.collect_entries, SortedMap.collect_entries, SortedMap.collect_entries,
      collect_keys, collect_keys, h1, h2, h3, h4, h5]

end

end Policy

end Wires
