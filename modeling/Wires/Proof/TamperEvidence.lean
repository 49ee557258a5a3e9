import Wires.Proof.Messages

/-!
# Tamper evidence

A signed policy that verifies holds exactly the items of one policy the root
signed with that head, and no message signed as one kind verifies as another
(`tamper_evident`): the head's signature is over its bytes, the head names the
hash of the items, and the bytes hashed say which items they encode. The last
step needs the email patterns to be results of parsing, as every decoded one
is: a pattern `Exact("*@x")`, which no text parses to, is written as
`Domain("x")` is (`not_tamper_evident_unparsed`).
-/

namespace Wires

section

variable [Crypto]

/-- The root signed each policy of the history. -/
def SignedBy (root : NodeIdentity) (history : List SignedPolicy) : Prop :=
  ∀ h ∈ history, ∃ (p : Policy) (previous : Option SignedPolicy), p.signWith root previous = .ok h

theorem SignedBy.itemsHash {root : NodeIdentity} {history : List SignedPolicy}
    (hs : SignedBy root history) {h : SignedPolicy} (hm : h ∈ history) :
    ItemsHash.of h.items = h.head.head.itemsHash := by
  obtain ⟨p, previous, hp⟩ := hs h hm
  obtain ⟨-, -, rfl⟩ := Policy.signWith_eq_ok.mp hp
  rfl

/-- The bytes hashed for the items of a policy and of a history. -/
def hashedItems (s : SignedPolicy) (history : List SignedPolicy) : Set (List UInt8) :=
  {m | ∃ x : SignedPolicy, (x = s ∨ x ∈ history) ∧ m = itemsBytes x.items}

/-- A policy that verifies has the head, and the hashed bytes, of one the root signed. -/
theorem itemsBytes_of_verify {root : NodeIdentity} {history : List SignedPolicy}
    {s : SignedPolicy} (hsigned : SignedBy root history)
    (hforge : Unforged (nodeId root) (rootMessages history) s.presented)
    (hcoll : NoCollision (hashedItems s history)) (hverify : s.verify (nodeId root) = .ok ()) :
    ∃ h ∈ history, h.head.head = s.head.head ∧ itemsBytes s.items = itemsBytes h.items := by
  obtain ⟨hhead, _, -, hhash, -⟩ := SignedPolicy.verify_eq_ok.mp hverify
  obtain ⟨h, hm, he⟩ := head_of_unforged hforge (.inl rfl) hhead
  refine ⟨h, hm, he, hcoll.eq ⟨s, .inl rfl, rfl⟩ ⟨h, .inr hm, rfl⟩ ?_⟩
  calc Crypto.hash (itemsBytes s.items) = s.head.head.itemsHash := hhash
    _ = h.head.head.itemsHash := by rw [he]
    _ = Crypto.hash (itemsBytes h.items) := (hsigned.itemsHash hm).symm

/-- Signatures of one kind of message verify none of another. -/
theorem verify_kind_eq_false {key : NodeId} {signed : Set (List UInt8)} {presented : Set Presented}
    (hforge : Unforged key signed presented) {a b : MessageKind} (ha : ∀ m ∈ signed, a.Signs m)
    (hab : a ≠ b) {x : Presented} (hx : x ∈ presented) (hb : b.Signs x.1) :
    Crypto.verify key x.1 x.2 = false := by
  by_contra hv
  exact hab (MessageKind.unique (ha _ (hforge x hx (by simpa using hv))) hb)

/-- **Tamper evidence.** With a collision-free hash and unforged signatures, a signed policy that
verifies, of parsed patterns, has the items of one policy the root signed with exactly that head;
and what is signed as one kind of message verifies as no other. -/
theorem tamper_evident (root : NodeIdentity) (history : List SignedPolicy) (s : SignedPolicy)
    (hsigned : SignedBy root history)
    (hforge : Unforged (nodeId root) (rootMessages history) s.presented)
    (hcoll : NoCollision (hashedItems s history))
    (hparsed : ∀ x, x = s ∨ x ∈ history → x.Parsed)
    (hverify : s.verify (nodeId root) = .ok ()) :
    (∃ h ∈ history, h.head.head = s.head.head ∧ s.items = h.items) ∧
      ∀ (key : NodeId) (signed : Set (List UInt8)) (presented : Set Presented)
        (a b : MessageKind), Unforged key signed presented → (∀ m ∈ signed, a.Signs m) → a ≠ b →
        ∀ x ∈ presented, b.Signs x.1 → Crypto.verify key x.1 x.2 = false := by
  obtain ⟨h, hm, he, hb⟩ := itemsBytes_of_verify hsigned hforge hcoll hverify
  have hi := itemsBytes_inj (hparsed s (.inl rfl)) (hparsed h (.inr hm)) hb
  exact ⟨⟨h, hm, he, hi⟩, fun key signed presented a b hf ha hab x hx hxb =>
    verify_kind_eq_false hf ha hab hx hxb⟩

end

/-! ## Patterns that no text parses to -/

section Sample

attribute [local instance] Crypto.plain

/-- A policy whose one role matches an email pattern. -/
def patternPolicy (pattern : EmailPattern) : Policy :=
  { samplePolicy 1 [] with
    services := ∅
    roles := ⟨[(sampleRole, [⟨"https://idp", some pattern, none, none⟩])], by simp⟩
    issuers := ⟨[("https://idp", ⟨"cli", ["cli"]⟩)], by simp⟩ }

def patternSigned (pattern : EmailPattern) : SignedPolicy :=
  (patternPolicy pattern).signed sampleRoot none

/-- The two patterns of one text. -/
def samplePatterns : List EmailPattern := [.exact "*@x", .domain "x"]

theorem validate_patternPolicy :
    ∀ p ∈ samplePatterns, (patternPolicy p).validate = .ok () := by decide

theorem patternSigned_ok {p : EmailPattern} (h : p ∈ samplePatterns) :
    (patternPolicy p).signWith sampleRoot none = .ok (patternSigned p) :=
  Policy.signWith_eq_ok.mpr ⟨rfl, validate_patternPolicy p h, rfl⟩

theorem verify_patternSigned {p : EmailPattern} (h : p ∈ samplePatterns) :
    (patternSigned p).verify (nodeId sampleRoot) = .ok () :=
  Policy.verify_signed_none rfl (validate_patternPolicy p h)

theorem signedBy_patternSigned {p : EmailPattern} (h : p ∈ samplePatterns) :
    SignedBy sampleRoot [patternSigned p] := by
  simp only [SignedBy, List.mem_singleton, forall_eq]
  exact ⟨_, none, patternSigned_ok h⟩

/-- A policy with no entry presents only its head. -/
theorem presented_patternSigned (p : EmailPattern) {x : Presented}
    (h : x ∈ (patternSigned p).presented) : x.1 = (patternSigned p).head.signedBytes := by
  rcases h with rfl | ⟨e, he, -⟩
  · rfl
  · cases he

/-- The two patterns have one text, so the two policies hash the same bytes. -/
theorem itemsBytes_pattern :
    itemsBytes (patternSigned (.exact "*@x")).items =
      itemsBytes (patternSigned (.domain "x")).items := by
  rfl

/-- So the two heads are one head. -/
theorem head_pattern :
    (patternSigned (.exact "*@x")).head = (patternSigned (.domain "x")).head := by
  have h : (patternPolicy (.exact "*@x")).headOver (patternSigned (.exact "*@x")).items =
      (patternPolicy (.domain "x")).headOver (patternSigned (.domain "x")).items := by
    simp only [Policy.headOver, ItemsHash.of, itemsBytes_pattern]
    rfl
  show SignedPolicyHead.mk _ _ _ = SignedPolicyHead.mk _ _ _
  exact congrArg (fun x => SignedPolicyHead.mk x .ed25519
    (Crypto.sign sampleRoot (x.signedBytes .ed25519))) h

theorem tamper_evident_sample : ∃ h ∈ [patternSigned (.domain "x")],
    h.head.head = (patternSigned (.domain "x")).head.head ∧
      (patternSigned (.domain "x")).items = h.items := by
  have hd : EmailPattern.domain "x" ∈ samplePatterns := by decide
  refine (tamper_evident sampleRoot [patternSigned (.domain "x")] (patternSigned (.domain "x"))
    (signedBy_patternSigned hd) ?_ ?_ ?_ (verify_patternSigned hd)).1
  · exact unforged_of_signed fun x hx =>
      ⟨_, List.mem_singleton_self _, .inl (presented_patternSigned _ hx)⟩
  · rintro _ ⟨x, hx, rfl⟩ _ ⟨y, hy, rfl⟩ _
    simp only [List.mem_singleton, or_self] at hx hy
    rw [hx, hy]
  · simp only [List.mem_singleton, or_self, forall_eq]
    refine Policy.parsed_signed ?_
    simp only [Policy.Parsed, patternPolicy, List.mem_singleton, forall_eq]
    rintro p ⟨⟩
    exact ⟨"*@x", by decide⟩

/-- Without the condition on patterns: the root signed a policy with `Exact("*@x")`, and the same
head with `Domain("x")` in its place verifies. -/
theorem not_tamper_evident_unparsed : ¬∀ (root : NodeIdentity) (history : List SignedPolicy)
    (s : SignedPolicy), SignedBy root history →
    Unforged (nodeId root) (rootMessages history) s.presented →
    NoCollision (hashedItems s history) → s.verify (nodeId root) = .ok () →
    ∃ h ∈ history, h.head.head = s.head.head ∧ s.items = h.items := by
  intro hall
  obtain ⟨h, hm, -, hi⟩ := hall sampleRoot [patternSigned (.exact "*@x")]
    (patternSigned (.domain "x")) (signedBy_patternSigned (by decide))
    (unforged_of_signed fun x hx => ⟨_, List.mem_singleton_self _, .inl (by
      rw [presented_patternSigned _ hx, head_pattern])⟩)
    (by
      have hone : ∀ m ∈ hashedItems (patternSigned (.domain "x"))
          [patternSigned (.exact "*@x")], m = itemsBytes (patternSigned (.domain "x")).items := by
        rintro m ⟨x, hx, rfl⟩
        rcases hx with rfl | hx
        · rfl
        · rw [List.mem_singleton.mp hx, itemsBytes_pattern]
      intro a ha b hb _
      rw [hone a ha, hone b hb])
    (verify_patternSigned (by decide))
  rw [List.mem_singleton.mp hm] at hi
  exact absurd hi (by decide)

end Sample

end Wires
