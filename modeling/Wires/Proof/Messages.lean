import Wires.Impl.Fresh
import Wires.Proof.Signing

/-!
# Signed messages

The root signs heads and entries, a directory signs fresh words, and an items
hash is taken of a policy's items. Each of these byte strings says which value
it encodes (`headBytes_inj`, `freshBytes_inj`, `itemsBytes_inj`), and no message
of one kind is a message of another (`MessageKind.unique`): the contexts they
start with are no prefixes of each other.
-/

namespace Wires

/-! ## What the bytes encode -/

theorem reads_freshBody (b : Fresh.SignedBody) : Reads b := reads_of_obj rfl fun _ _ hσ hp =>
  fields_bind hp (by simp) (by simp)
    (field_bind hσ (reads_uint8 _) rfl
      (field_bind hσ (reads_bytes _) rfl
        (field_bind hσ (reads_bytes _) rfl
          (field_bind hσ (reads_uint64 _) rfl
            (field_bind hσ (reads_bytes _) rfl
              (field_bind hσ (reads_int64 _) rfl
                (field_bind hσ (reads_int64 _) rfl
                  (field_bind hσ (reads_algorithmId _) rfl rfl))))))))

/-- A context and a canonical text: the text says the value, when the value reads back. -/
theorem contextBytes_inj {α : Type} [Serde α] {a b : α} {context : List Char} (ha : Reads a)
    (hb : Reads b) (h : utf8 (context ++ canonicalText a) = utf8 (context ++ canonicalText b)) :
    a = b :=
  canonical_inj ha hb (List.append_cancel_left (utf8_injective h))

theorem headBytes_inj {h k : SignedPolicyHead} (he : h.signedBytes = k.signedBytes) :
    h.head = k.head ∧ h.alg = k.alg := by
  have := contextBytes_inj (reads_headBody _) (reads_headBody _) he
  exact ⟨congrArg PolicyHead.SignedBody.head this, congrArg PolicyHead.SignedBody.alg this⟩

theorem freshBytes_inj {f g : Fresh} (he : f.signedBytes = g.signedBytes) : f.body = g.body :=
  contextBytes_inj (reads_freshBody _) (reads_freshBody _) he

theorem itemsBytes_inj {is js : List Item} (hi : ∀ i ∈ is, i.Parsed) (hj : ∀ j ∈ js, j.Parsed)
    (he : itemsBytes is = itemsBytes js) : is = js :=
  contextBytes_inj (reads_list fun i h => Item.reads (hi i h))
    (reads_list fun j h => Item.reads (hj j h)) he

theorem hashBytes_inj {h k : SignedPolicyHead} (he : h.hashBytes = k.hashBytes) : h = k :=
  canonical_inj (reads_signedPolicyHead _) (reads_signedPolicyHead _) (utf8_injective he)

/-! ## Kinds of message -/

/-- What a signature may be over. -/
inductive MessageKind where
  | head
  | entry
  | fresh
deriving DecidableEq

/-- What a kind's messages start with. -/
def MessageKind.context : MessageKind → List Char
  | .head => POLICY_HEAD_CONTEXT
  | .entry => ENTRY_CONTEXT
  | .fresh => FRESH_CONTEXT

/-- The message is the signed bytes of some value of the kind. -/
def MessageKind.Signs (k : MessageKind) (m : List UInt8) : Prop :=
  match k with
  | .head => ∃ (h : PolicyHead) (alg : AlgorithmId), m = h.signedBytes alg
  | .entry => ∃ b : SignedEntry.SignedBody, m = b.signedBytes
  | .fresh => ∃ b : Fresh.SignedBody, m = b.signedBytes

theorem MessageKind.Signs.context {k : MessageKind} {m : List UInt8} (h : k.Signs m) :
    ∃ text, m = utf8 (k.context ++ text) := by
  cases k with
  | head => obtain ⟨_, _, rfl⟩ := h; exact ⟨_, rfl⟩
  | entry => obtain ⟨_, rfl⟩ := h; exact ⟨_, rfl⟩
  | fresh => obtain ⟨_, rfl⟩ := h; exact ⟨_, rfl⟩

theorem MessageKind.eq_of_context_le (k l : MessageKind) : k.context <+: l.context → k = l := by
  cases k <;> cases l <;> decide

/-- No message is of two kinds. -/
theorem MessageKind.unique {k l : MessageKind} {m : List UInt8} (hk : k.Signs m)
    (hl : l.Signs m) : k = l := by
  obtain ⟨x, rfl⟩ := hk.context
  obtain ⟨y, he⟩ := hl.context
  have he := utf8_injective he
  rcases List.prefix_or_prefix_of_prefix (List.prefix_append k.context x)
    (he ▸ List.prefix_append l.context y) with h | h
  · exact eq_of_context_le k l h
  · exact (eq_of_context_le l k h).symm

theorem signs_head (h : SignedPolicyHead) : MessageKind.head.Signs h.signedBytes := ⟨_, _, rfl⟩

theorem signs_entry (e : SignedEntry) : MessageKind.entry.Signs e.signedBytes := ⟨_, rfl⟩

theorem signs_fresh (f : Fresh) : MessageKind.fresh.Signs f.signedBytes := ⟨_, rfl⟩

theorem headBytes_ne_entryBytes (h : SignedPolicyHead) (e : SignedEntry) :
    h.signedBytes ≠ e.signedBytes := fun he => by
  have hk : MessageKind.head = MessageKind.entry :=
    MessageKind.unique (signs_head h) (by rw [he]; exact signs_entry e)
  cases hk

/-! ## What the root signed, and what is presented -/

/-- The messages the root signed for a history of policies: each one's head and entries. -/
def rootMessages (history : List SignedPolicy) : Set (List UInt8) :=
  {m | ∃ h ∈ history, m = h.head.signedBytes ∨ ∃ e ∈ h.entries, m = e.signedBytes}

/-- The signature a head presents. -/
def SignedPolicyHead.presented (h : SignedPolicyHead) : Presented := (h.signedBytes, h.sig)

/-- The signature an entry presents. -/
def SignedEntry.presented (e : SignedEntry) : Presented := (e.signedBytes, e.sig)

/-- The signatures a signed policy presents: its head's and its entries'. -/
def SignedPolicy.presented (s : SignedPolicy) : Set Presented :=
  {x | x = s.head.presented ∨ ∃ e ∈ s.entries, x = e.presented}

variable [Crypto]

/-- A head that verifies, of a root whose signatures are not forged, is one the root signed. -/
theorem head_of_unforged {root : NodeId} {history : List SignedPolicy} {presented : Set Presented}
    (hforge : Unforged root (rootMessages history) presented) {h : SignedPolicyHead}
    (hp : h.presented ∈ presented) (hv : h.verify root = .ok ()) :
    ∃ p ∈ history, p.head.head = h.head := by
  obtain ⟨-, -, -, hsig, -⟩ := SignedPolicyHead.verify_eq_ok.mp hv
  obtain ⟨p, hm, he | ⟨e, -, he⟩⟩ := hforge _ hp hsig
  · exact ⟨p, hm, (headBytes_inj he).1.symm⟩
  · exact absurd he (headBytes_ne_entryBytes h e)

end Wires
