import Wires.Impl.SignedPolicy

/-!
# Signed values read back from their JSON

`Reads` for each type on the wire: a value is read back from its JSON with the
members of every object in any order, so both from its text in declared order
and from its canonical text. A role's matchers need their email patterns to be
results of parsing (`EmailPattern.Parsed`): a pattern is written as its text
and read by parsing it. Every decoded item is so (`parsed_of_ofJson`).
-/

namespace Wires

open Json

theorem reads_person (p : Person) : Reads p := reads_of_obj rfl fun _ _ hσ hp =>
  fields_bind hp (by simp) (by simp)
    (field_bind hσ (reads_string _) rfl (field_bind hσ (reads_string _) rfl rfl))

theorem reads_issuerConfig (c : IssuerConfig) : Reads c := reads_of_obj rfl fun _ _ hσ hp =>
  fields_bind hp (by simp) (by simp)
    (field_bind hσ (reads_string _) rfl
      (field_bind hσ (reads_list fun _ _ => reads_string _) rfl rfl))

theorem reads_settings (s : Settings) : Reads s := reads_of_obj rfl fun _ _ hσ hp =>
  fields_bind hp (by simp) (by simp)
    (field_bind hσ (reads_uint32 _) rfl (field_bind hσ (reads_uint32 _) rfl rfl))

theorem reads_serviceName (n : ServiceName) : Reads n := fun σ hσ => by
  show ofJsonText ServiceName.new _ = _
  rw [ofJsonText, show toJson n = toJson n.name from rfl, reads_string n.name σ hσ,
    Option.bind_some, ServiceName.new_name]
  rfl

theorem reads_service (s : Service) : Reads s := reads_of_obj rfl fun _ _ hσ hp =>
  fields_bind hp (by simp) (by simp)
    (field_bind hσ (reads_string _) rfl
      (field_bind hσ (reads_list fun _ _ => reads_roleName _) rfl
        (field_bind hσ (reads_list fun _ _ => reads_bytes _) rfl rfl)))

/-! ## Entries -/

theorem ofJson_entry_members (e : SignedEntry) {σ : List (String × Json) → List (String × Json)}
    {ns : List (String × Json)} (hσ : IsArrangement σ)
    (hp : ns.Perm (e.members.map fun m => (m.1, m.2.arrange σ))) :
    ofJson (.obj ns) = some e :=
  fields_bind hp (by simp [SignedEntry.members]) (by simp [SignedEntry.members])
    (field_bind hσ (reads_uint8 _) rfl
      (field_bind hσ (reads_bytes _) rfl
        (field_bind hσ (reads_uint64 _) rfl
          (field_bind hσ (reads_serviceName _) rfl
            (field_bind hσ (reads_service _) rfl
              (field_bind hσ (reads_algorithmId _) rfl
                (field_bind hσ (reads_bytes _) rfl rfl)))))))

theorem reads_signedEntry (e : SignedEntry) : Reads e :=
  reads_of_obj rfl fun _ _ hσ hp => ofJson_entry_members e hσ hp

/-! ## Heads -/

theorem reads_policyHead (h : PolicyHead) : Reads h := reads_of_obj rfl fun _ _ hσ hp =>
  fields_bind hp (by simp) (by simp)
    (field_bind hσ (reads_uint8 _) rfl
      (field_bind hσ (reads_bytes _) rfl
        (field_bind hσ (reads_uint64 _) rfl
          (field_bind hσ (reads_int64 _) rfl
            (field_bind hσ (reads_int64 _) rfl
              (field_bind hσ (reads_list fun _ _ => reads_bytes _) rfl
                (field_bind hσ (reads_uint32 _) rfl
                  (field_bind hσ (reads_bytes _) rfl rfl))))))))

theorem reads_headBody (b : PolicyHead.SignedBody) : Reads b := reads_of_obj rfl fun _ _ hσ hp =>
  fields_bind hp (by simp) (by simp)
    (field_bind hσ (reads_algorithmId _) rfl (field_bind hσ (reads_policyHead _) rfl rfl))

theorem reads_signedPolicyHead (h : SignedPolicyHead) : Reads h := reads_of_obj rfl fun _ _ hσ hp =>
  fields_bind hp (by simp) (by simp)
    (field_bind hσ (reads_policyHead _) rfl
      (field_bind hσ (reads_algorithmId _) rfl (field_bind hσ (reads_bytes _) rfl rfl)))

/-! ## Roles -/

namespace EmailPattern

/-- A parsed pattern is read back from its text. -/
theorem parse_display {p : EmailPattern} (h : p.Parsed) : parse p.display = .ok p := by
  obtain ⟨s, hs⟩ := h
  rw [parse] at hs
  split at hs
  · rename_i dom _
    split_ifs at hs with hd
    cases hs
    simp only [not_or] at hd
    have hl : (asciiLower (String.ofList dom)).toList = dom.map Char.toLower := by
      simp [asciiLower]
    rw [parse, display, String.toList_append, hl]
    show (if _ then _ else _) = _
    rw [if_neg]
    · rw [← hl]
      show Except.ok (domain (asciiLower (String.ofList (asciiLower _).toList))) = _
      rw [String.ofList_toList, asciiLower_asciiLower]
    · simpa [mem_map_toLower (d := '*') (by decide), mem_map_toLower (d := '@') (by decide)] using hd
  · rename_i cs hglob
    split_ifs at hs with hstar
    split at hs
    · rename_i loc dom hsplit
      split_ifs at hs with hok
      cases hs
      have hl : (asciiLower s).toList = s.toList.map Char.toLower := by simp [asciiLower]
      have hstar' : '*' ∉ s.toList.map Char.toLower := by
        rwa [mem_map_toLower (by decide)]
      rw [parse, display, hl]
      split
      · rename_i heq
        exact absurd (heq ▸ List.mem_cons_self) hstar'
      · rw [if_neg hstar', splitOnce_map_toLower (by decide), hsplit]
        show (if _ then _ else _) = _
        rw [if_pos, asciiLower_asciiLower]
        simpa [mem_map_toLower (d := '@') (by decide)] using hok
    · cases hs

theorem reads {p : EmailPattern} (h : p.Parsed) : Reads p := fun σ hσ => by
  show ofJsonText parse _ = _
  rw [ofJsonText, show toJson p = toJson p.display from rfl, reads_string p.display σ hσ,
    Option.bind_some, parse_display h]
  rfl

/-- A decoded pattern is a result of parsing. -/
theorem parsed_of_ofJson {j : Json} {p : EmailPattern} (h : ofJson j = some p) : p.Parsed := by
  obtain ⟨s, -, hs⟩ := Option.bind_eq_some_iff.mp (show (ofJson j).bind _ = some p from h)
  exact ⟨s, by cases hp : parse s <;> simp_all [Except.toOption]⟩

end EmailPattern

theorem reads_matcher {m : Matcher} (h : m.Parsed) : Reads m := reads_of_obj rfl fun _ _ hσ hp =>
  fields_bind hp (by cases m.email <;> cases m.org <;> cases m.group <;> simp [optMember])
    (by cases m.email <;> cases m.org <;> cases m.group <;> simp [optMember])
    (field_bind hσ (reads_string _) rfl
      (optField_bind hσ (fun p hp => ⟨EmailPattern.reads (h p hp), nofun⟩)
        (by cases m.email <;> cases m.org <;> cases m.group <;> rfl)
        (optField_bind hσ (fun _ _ => ⟨reads_string _, nofun⟩)
          (by cases m.email <;> cases m.org <;> cases m.group <;> rfl)
          (optField_bind hσ (fun _ _ => ⟨reads_string _, nofun⟩)
            (by cases m.email <;> cases m.org <;> cases m.group <;> rfl) rfl))))

/-! ## Items -/

namespace Item

theorem ofKind_members {i : Item} (h : i.Parsed)
    {σ : List (String × Json) → List (String × Json)} {ns : List (String × Json)}
    (hσ : IsArrangement σ) (hp : ns.Perm (i.members.map fun m => (m.1, m.2.arrange σ))) :
    ofKind i.kindName (.obj ns) = some i := by
  cases i with
  | role k b =>
    exact fields_bind hp (by simp [members]) (by simp [members])
      (field_bind hσ (reads_roleName _) rfl
        (field_bind hσ (reads_list fun m hm => reads_matcher (h m hm)) rfl rfl))
  | service e =>
    show (ofJson (.obj ns)).map Item.service = _
    rw [ofJson_entry_members e hσ hp]
    rfl
  | ban k =>
    exact fields_bind hp (by simp [members]) (by simp [members])
      (field_bind hσ (reads_bytes _) rfl rfl)
  | personBan k =>
    exact fields_bind hp (by simp [members]) (by simp [members])
      (field_bind hσ (reads_person _) rfl rfl)
  | issuer k b =>
    exact fields_bind hp (by simp [members]) (by simp [members])
      (field_bind hσ (reads_string _) rfl (field_bind hσ (reads_issuerConfig _) rfl rfl))
  | settings b =>
    exact fields_bind hp (by simp [members]) (by simp [members])
      (field_bind hσ (reads_settings _) rfl rfl)

theorem kind_not_mem_members (i : Item) : "kind" ∉ i.members.map Prod.fst := by
  cases i <;> simp [members, SignedEntry.members]

theorem reads {i : Item} (h : i.Parsed) : Reads i := fun σ hσ => by
  obtain ⟨ns, ht, hp⟩ : ∃ ns, tagged "kind" ((obj (("kind", .str i.kindName.toList) ::
      i.members)).arrange σ) = some (i.kindName.toList, .obj ns) ∧
      ns.Perm (i.members.map fun m => (m.1, m.2.arrange σ)) :=
    tagged_arrange hσ _ i.kind_not_mem_members
  show (tagged "kind" _).bind _ = _
  rw [show toJson i = .obj (("kind", .str i.kindName.toList) :: i.members) from rfl, ht,
    Option.bind_some, String.ofList_toList, ofKind_members h hσ hp]

end Item

theorem reads_signedPolicy {s : SignedPolicy} (h : s.Parsed) : Reads s :=
  reads_of_obj rfl fun _ _ hσ hp =>
    fields_bind hp (by simp) (by simp)
      (field_bind hσ (reads_signedPolicyHead _) rfl
        (field_bind hσ (reads_list fun i hi => Item.reads (h i hi)) rfl rfl))

/-! ## What is decoded is parsed -/

theorem Matcher.parsed_of_ofJson {j : Json} {m : Matcher} (h : ofJson j = some m) : m.Parsed := by
  obtain ⟨f, -, h⟩ := Option.bind_eq_some_iff.mp (show (Json.fields _ j).bind _ = some m from h)
  obtain ⟨iss, -, h⟩ := Option.bind_eq_some_iff.mp h
  obtain ⟨email, he, h⟩ := Option.bind_eq_some_iff.mp h
  obtain ⟨org, -, h⟩ := Option.bind_eq_some_iff.mp h
  obtain ⟨group, -, h⟩ := Option.bind_eq_some_iff.mp h
  cases h
  rintro p hp
  obtain rfl : email = some p := hp
  rw [optField] at he
  split at he
  · cases he
  · cases he
  · obtain ⟨q, hq, hqp⟩ := Option.map_eq_some_iff.mp he
    cases hqp
    exact EmailPattern.parsed_of_ofJson hq

/-- What an element of a decoded array was decoded from. -/
theorem mem_of_mapM {α : Type} [Serde α] {js : List Json} {as : List α}
    (h : js.mapM ofJson = some as) : ∀ a ∈ as, ∃ j ∈ js, ofJson j = some a := by
  induction js generalizing as with
  | nil =>
    cases h
    simp
  | cons j js ih =>
    rw [List.mapM_cons] at h
    obtain ⟨b, hb, h⟩ := Option.bind_eq_some_iff.mp h
    obtain ⟨bs, hbs, h⟩ := Option.bind_eq_some_iff.mp h
    cases h
    rintro a (_ | ⟨_, ha⟩)
    · exact ⟨j, List.mem_cons_self, hb⟩
    · obtain ⟨j', hj', ha⟩ := ih hbs a ha
      exact ⟨j', List.mem_cons_of_mem _ hj', ha⟩

theorem mem_of_ofJson_list {α : Type} [Serde α] {j : Json} {as : List α}
    (h : ofJson j = some as) : ∀ a ∈ as, ∃ j', ofJson j' = some a := by
  cases j with
  | arr js => exact fun a ha => (mem_of_mapM h a ha).imp fun _ hj => hj.2
  | _ => cases h

theorem Item.parsed_of_ofKind {kind : String} {j : Json} {i : Item} (h : ofKind kind j = some i) :
    i.Parsed := by
  rw [ofKind.eq_def] at h
  split at h
  case h_1 =>
    obtain ⟨f, -, h⟩ := Option.bind_eq_some_iff.mp h
    obtain ⟨k, -, h⟩ := Option.bind_eq_some_iff.mp h
    obtain ⟨ms, hms, h⟩ := Option.bind_eq_some_iff.mp h
    cases h
    obtain ⟨j', -, hj'⟩ := Option.bind_eq_some_iff.mp hms
    exact fun m hm => Matcher.parsed_of_ofJson (mem_of_ofJson_list hj' m hm).choose_spec
  case h_2 =>
    obtain ⟨e, -, rfl⟩ := Option.map_eq_some_iff.mp h
    trivial
  case h_3 =>
    obtain ⟨f, -, h⟩ := Option.bind_eq_some_iff.mp h
    obtain ⟨k, -, h⟩ := Option.bind_eq_some_iff.mp h
    cases h; trivial
  case h_4 =>
    obtain ⟨f, -, h⟩ := Option.bind_eq_some_iff.mp h
    obtain ⟨k, -, h⟩ := Option.bind_eq_some_iff.mp h
    cases h; trivial
  case h_5 =>
    obtain ⟨f, -, h⟩ := Option.bind_eq_some_iff.mp h
    obtain ⟨k, -, h⟩ := Option.bind_eq_some_iff.mp h
    obtain ⟨b, -, h⟩ := Option.bind_eq_some_iff.mp h
    cases h; trivial
  case h_6 =>
    obtain ⟨f, -, h⟩ := Option.bind_eq_some_iff.mp h
    obtain ⟨k, -, h⟩ := Option.bind_eq_some_iff.mp h
    cases h; trivial
  case h_7 => cases h

theorem Item.parsed_of_ofJson {j : Json} {i : Item} (h : ofJson j = some i) : i.Parsed := by
  obtain ⟨p, -, h⟩ := Option.bind_eq_some_iff.mp (show (j.tagged "kind").bind _ = some i from h)
  exact Item.parsed_of_ofKind h

/-- A decoded policy's email patterns are results of parsing. -/
theorem SignedPolicy.parsed_of_ofJson {j : Json} {s : SignedPolicy} (h : ofJson j = some s) :
    s.Parsed := by
  obtain ⟨f, -, h⟩ := Option.bind_eq_some_iff.mp (show (Json.fields _ j).bind _ = some s from h)
  obtain ⟨head, -, h⟩ := Option.bind_eq_some_iff.mp h
  obtain ⟨items, hi, h⟩ := Option.bind_eq_some_iff.mp h
  cases h
  obtain ⟨j', -, hj'⟩ := Option.bind_eq_some_iff.mp hi
  exact fun i hm => Item.parsed_of_ofJson (mem_of_ofJson_list hj' i hm).choose_spec

end Wires
