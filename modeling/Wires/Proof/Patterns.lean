import Wires.Impl.Edit
import Wires.Proof.Encoding

/-!
# Email patterns

What a pattern admits, over all texts (`matches_domain`, `of_parse`), and that
neither a role nor a person ban tells two principals apart that differ in the
case of their email alone (`Principal.folded`). A pattern and a ban fold the
case of an email each on its own.
-/

namespace Wires

/-! ## Folding -/

theorem eqIgnoreCase_asciiLower (s t : String) : eqIgnoreCase s (asciiLower t) = eqIgnoreCase s t := by
  rw [eqIgnoreCase, asciiLower_asciiLower, eqIgnoreCase]

theorem eqIgnoreCase_congr {s s' : String} (h : asciiLower s = asciiLower s') (t : String) :
    eqIgnoreCase s t = eqIgnoreCase s' t := by
  rw [eqIgnoreCase, h, eqIgnoreCase]

/-- Folding moves no separator. -/
theorem rsplitOnce_map_toLower {sep : Char} (hs : sep.toNat < 65) (cs : List Char) :
    rsplitOnce sep (cs.map Char.toLower) =
      (rsplitOnce sep cs).map fun p => (p.1.map Char.toLower, p.2.map Char.toLower) := by
  rw [rsplitOnce, ← List.map_reverse, splitOnce_map_toLower hs, Option.map_map, rsplitOnce,
    Option.map_map]
  refine Option.map_congr fun p _ => ?_
  simp only [Function.comp_apply, List.map_reverse]

namespace EmailPattern

variable {s d email email' : String}

/-- An address matches a domain by what stands after its last `@`. -/
theorem matches_domain : (domain d).matches email = true ↔ ∃ loc dom, email.toList = loc ++ '@' :: dom ∧
    '@' ∉ dom ∧ loc ≠ [] ∧ eqIgnoreCase (String.ofList dom) d = true := by
  unfold «matches»
  cases hsplit : rsplitOnce '@' email.toList with
  | none =>
    refine iff_of_false Bool.false_ne_true ?_
    rintro ⟨loc, dom, heq, hdom, -⟩
    have hsome := rsplitOnce_eq_some_iff (p := (loc, dom)).mpr ⟨heq, hdom⟩
    rw [hsplit] at hsome
    cases hsome
  | some p =>
    obtain ⟨heq, hdom⟩ := rsplitOnce_eq_some_iff.mp hsplit
    simp only [Bool.and_eq_true, Bool.not_eq_true', List.isEmpty_eq_false_iff]
    constructor
    · rintro ⟨hloc, hd⟩
      exact ⟨p.1, p.2, heq, hdom, hloc, hd⟩
    · rintro ⟨loc, dom, heq', hdom', hloc, hd⟩
      have hsome := rsplitOnce_eq_some_iff (p := (loc, dom)).mpr ⟨heq', hdom'⟩
      rw [hsplit] at hsome
      obtain rfl := Option.some.inj hsome
      exact ⟨hloc, hd⟩

/-- What a text is parsed to, is the text with its letters folded. -/
theorem of_parse {p : EmailPattern} (h : parse s = .ok p) :
    (∃ dom, dom ≠ "" ∧ s = "*@" ++ dom ∧ p = .domain (asciiLower dom)) ∨
      '*' ∉ s.toList ∧ p = .exact (asciiLower s) := by
  rw [parse] at h
  split at h
  · rename_i dom hs
    split_ifs at h with hd
    obtain rfl := Except.ok.inj h
    have hne : dom ≠ [] := fun heq => hd (.inl heq)
    refine .inl ⟨String.ofList dom, ?_, ?_, rfl⟩
    · intro heq
      apply hne
      simpa using congrArg String.toList heq
    · apply String.toList_inj.mp
      rw [hs, String.toList_append]
      simp
  · split_ifs at h with hstar
    split at h
    · split_ifs at h
      obtain rfl := Except.ok.inj h
      exact .inr ⟨hstar, rfl⟩
    · cases h

/-- No pattern sees the case of an address. -/
theorem matches_congr (h : asciiLower email = asciiLower email') (p : EmailPattern) :
    p.matches email = p.matches email' := by
  cases p with
  | exact want => exact eqIgnoreCase_congr h want
  | domain d =>
    have hmap : email.toList.map Char.toLower = email'.toList.map Char.toLower := by
      simpa [asciiLower] using congrArg String.toList h
    have hsplit := congrArg (rsplitOnce '@') hmap
    rw [rsplitOnce_map_toLower (by decide), rsplitOnce_map_toLower (by decide)] at hsplit
    unfold «matches»
    cases hp : rsplitOnce '@' email.toList with
    | none =>
      rw [hp, Option.map_none, eq_comm, Option.map_eq_none_iff] at hsplit
      rw [hsplit]
    | some p =>
      rw [hp, Option.map_some, eq_comm, Option.map_eq_some_iff] at hsplit
      obtain ⟨q, hq, heq⟩ := hsplit
      obtain ⟨hloc, hdom⟩ := Prod.mk.inj heq
      have hfold : asciiLower (String.ofList p.2) = asciiLower (String.ofList q.2) := by
        simp [asciiLower, hdom]
      have hempty : p.1.isEmpty = q.1.isEmpty := by
        rw [← List.isEmpty_map (f := Char.toLower), ← hloc, List.isEmpty_map]
      rw [hq]
      show (!p.1.isEmpty && eqIgnoreCase (String.ofList p.2) d) =
        (!q.1.isEmpty && eqIgnoreCase (String.ofList q.2) d)
      rw [hempty, eqIgnoreCase_congr hfold]

end EmailPattern

/-! ## Principals -/

/-- The principal, with the letters of its email folded. -/
def Principal.folded (p : Principal) : Principal := { p with email := p.email.map asciiLower }

variable {p q : Principal}

theorem fields_of_folded (h : p.folded = q.folded) :
    p.issuer = q.issuer ∧ p.org = q.org ∧ p.groups = q.groups := by
  simp only [Principal.folded, Principal.mk.injEq] at h
  obtain ⟨hissuer, -, -, horg, hgroups, -⟩ := h
  exact ⟨hissuer, horg, hgroups⟩

/-- Principals are alike but for the case of their emails: both have none, or each has one. -/
theorem email_of_folded (h : p.folded = q.folded) : (p.email = none ∧ q.email = none) ∨
    ∃ e e', p.email = some e ∧ q.email = some e' ∧ asciiLower e = asciiLower e' := by
  have hemail : p.folded.email = q.folded.email := by rw [h]
  simp only [Principal.folded] at hemail
  cases hp : p.email with
  | none =>
    rw [hp, Option.map_none, eq_comm, Option.map_eq_none_iff] at hemail
    exact .inl ⟨rfl, hemail⟩
  | some e =>
    rw [hp, Option.map_some, eq_comm, Option.map_eq_some_iff] at hemail
    obtain ⟨e', he', heq⟩ := hemail
    exact .inr ⟨e, e', rfl, he', heq.symm⟩

/-- What looks at an email without its case finds the same. -/
theorem any_of_folded (h : p.folded = q.folded) {f : String → Bool}
    (hf : ∀ e e', asciiLower e = asciiLower e' → f e = f e') : p.email.any f = q.email.any f := by
  rcases email_of_folded h with ⟨hp, hq⟩ | ⟨e, e', hp, hq, heq⟩
  · rw [hp, hq]
  · rw [hp, hq, Option.any_some, Option.any_some, hf e e' heq]

theorem Matcher.matches_of_folded (h : p.folded = q.folded) (m : Matcher) :
    m.matches p = m.matches q := by
  obtain ⟨hissuer, horg, hgroups⟩ := fields_of_folded h
  have hemail : ∀ pat : EmailPattern, (p.email.any fun e => pat.matches e) =
      q.email.any fun e => pat.matches e := fun pat =>
    any_of_folded h fun e e' heq => EmailPattern.matches_congr heq pat
  simp only [«matches», hissuer, horg, hgroups, hemail]

theorem Person.matches_of_folded (h : p.folded = q.folded) (person : Person) :
    person.matches p = person.matches q := by
  have hissuer := (fields_of_folded h).1
  have hemail := any_of_folded h fun _ _ heq => eqIgnoreCase_congr heq person.email
  rw [«matches», hissuer, hemail, «matches»]

theorem admits_of_folded (h : p.folded = q.folded) (matchers : Option (List Matcher)) :
    admits matchers (some p) = admits matchers (some q) := by
  have hsome : p.email.isSome = q.email.isSome := by
    rcases email_of_folded h with ⟨hp, hq⟩ | ⟨e, e', hp, hq, -⟩
    · rw [hp, hq]
    · rw [hp, hq]
      rfl
  cases matchers with
  | none => rfl
  | some ms =>
    show (p.email.isSome && ms.any fun m => m.matches p) =
      (q.email.isSome && ms.any fun m => m.matches q)
    simp only [hsome, Matcher.matches_of_folded h]

/-- **Email patterns.** A pattern is parsed back from its text, and a matcher with a pattern that
was parsed, as in every decoded one, read back from its JSON. A domain pattern matches the addresses
with something before their last `@`, and the domain after it; an exact one what is equal to it; both
ignoring case. And to principals alike but for the case of their emails the roles, and the bans, of
every policy say the same. -/
theorem email_patterns :
    (∀ s p, EmailPattern.parse s = .ok p → EmailPattern.parse p.display = .ok p) ∧
    (∀ m : Matcher, m.Parsed → readText (jsonText m) = some m ∧ readText (canonicalText m) = some m) ∧
    (∀ j (m : Matcher), ofJson j = some m → m.Parsed) ∧
    (∀ s d, EmailPattern.parse s = .ok (.domain d) → ∃ dom, dom ≠ "" ∧ s = "*@" ++ dom ∧
      ∀ email : String, (EmailPattern.domain d).matches email = true ↔
        ∃ loc rest, email.toList = loc ++ '@' :: rest ∧ '@' ∉ rest ∧ loc ≠ [] ∧
          eqIgnoreCase (String.ofList rest) dom = true) ∧
    (∀ s e, EmailPattern.parse s = .ok (.exact e) →
      ∀ email, (EmailPattern.exact e).matches email = true ↔ eqIgnoreCase email s = true) ∧
    ∀ p q : Principal, p.folded = q.folded → ∀ policy : Policy,
      (∀ role, policy.roleAdmits role (some p) = policy.roleAdmits role (some q)) ∧
      policy.anyRoleAdmits p = policy.anyRoleAdmits q ∧
      (∀ person : Person, person.matches p = person.matches q) ∧
      policy.bansPerson p = policy.bansPerson q := by
  refine ⟨fun s p hs => EmailPattern.parse_display ⟨s, hs⟩,
    fun m hm => ⟨(reads_matcher hm).text, (reads_matcher hm).canonical⟩,
    fun _ _ => Matcher.parsed_of_ofJson, fun s d hs => ?_, fun s e hs email => ?_, fun p q h policy => ?_⟩
  · rcases EmailPattern.of_parse hs with ⟨dom, hdom, rfl, heq⟩ | ⟨-, heq⟩
    · obtain rfl := EmailPattern.domain.inj heq
      refine ⟨dom, hdom, rfl, fun email => ?_⟩
      simp only [EmailPattern.matches_domain, eqIgnoreCase_asciiLower]
    · cases heq
  · rcases EmailPattern.of_parse hs with ⟨dom, -, -, heq⟩ | ⟨-, heq⟩
    · cases heq
    · obtain rfl := EmailPattern.exact.inj heq
      show eqIgnoreCase email (asciiLower s) = true ↔ _
      rw [eqIgnoreCase_asciiLower]
  · refine ⟨fun role => admits_of_folded h _, ?_, Person.matches_of_folded h, ?_⟩
    · simp only [Policy.anyRoleAdmits, admits_of_folded h]
    · simp only [Policy.bansPerson, Person.matches_of_folded h]

end Wires
