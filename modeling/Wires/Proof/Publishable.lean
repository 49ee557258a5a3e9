import Wires.Proof.Signing
import Wires.Proof.Sizes

/-!
# A signed policy's frames fit the wire

Of a policy the admin signs, the head is published ahead of its items, the
whole is sent with a directory's word on it, and the head is shown with up to
sixteen words (`Served`). `validate` bounds neither how many directories the
head lists nor how much of a frame the items take: a signed policy is served
exactly when its directories are few enough and its items leave room for the
head and the word (`served_iff`). What is counted is `Json.size`, byte for byte.
-/

namespace Wires

/-! ## Frames within a cap -/

/-- A message is encoded, in no more bytes than its reader takes. -/
def Sending.Fits (m : Sending) : Prop := ∃ bs, m.encode = .ok bs ∧ bs.length ≤ 4 + m.cap

/-- A directory's frame is within a cap that is no more than the encoder's as its JSON is. -/
theorem encodeFrame_within {α : Type} [Serde α] {a : α} {cap : Nat}
    (h : cap ≤ MAX_DIRECTORY_FRAME) :
    (∃ bs, encodeFrame a = .ok bs ∧ bs.length ≤ 4 + cap) ↔ (toJson a).size ≤ cap := by
  have hmax : MAX_DIRECTORY_FRAME < 2 ^ 32 := by decide
  rw [← length_canonicalBytes a]
  constructor
  · intro ⟨bs, he, hle⟩
    have := (length_encodeFrame he).1
    omega
  · intro hle
    obtain ⟨bs, hbs, hlength⟩ := lengthPrefixed_of_le hle (by omega)
    refine ⟨bs, ?_, hlength⟩
    rw [encodeFrame, if_neg (by omega), hbs, orError_some]

/-- A session's frame, its tag included. -/
theorem encode_within {f : Frame} {cap : Nat} (h : cap < 2 ^ 32) :
    (∃ bs, f.encode = .ok bs ∧ bs.length ≤ 4 + cap) ↔ f.body.length + 1 ≤ cap := by
  constructor
  · intro ⟨bs, he, hle⟩
    obtain ⟨-, rfl⟩ := lengthPrefixed_eq_some.mp (Frame.encode_eq_ok.mp he)
    rw [List.length_append, length_be32, List.length_cons] at hle
    omega
  · intro hle
    obtain ⟨bs, hbs, hlength⟩ := @lengthPrefixed_of_le (f.tag :: f.body) _ hle h
    exact ⟨bs, Frame.encode_eq_ok.mpr hbs, hlength⟩

/-! ## The sizes of a head and a word -/

/-- The characters of the numbers in a head. -/
def PolicyHead.numerals (h : PolicyHead) : Nat :=
  Json.decimals h.version.toNat + Json.decimals h.issued.toInt + Json.decimals h.notAfter.toInt +
    Json.decimals h.freshSecs.toNat

/-- The bytes of some keys in a row, with the commas between them. -/
def listedBytes (n : Nat) : Nat := n * 66 + (n - 1)

theorem size_directories (ds : List NodeId) : (toJson ds).size = listedBytes ds.length + 2 := by
  have hsize := @Json.size_arr_eq (ds.map toJson) 66 (by simp [size_bytes])
  rw [List.length_map] at hsize
  rw [show toJson ds = .arr (ds.map toJson) from rfl, hsize, listedBytes]
  omega

/-- What the keys of a head and a word take. -/
theorem size_keys :
    (utf8 (Json.quote "format".toList)).length = 8 ∧
    (utf8 (Json.quote "fabric".toList)).length = 8 ∧
    (utf8 (Json.quote "version".toList)).length = 9 ∧
    (utf8 (Json.quote "issued".toList)).length = 8 ∧
    (utf8 (Json.quote "not_after".toList)).length = 11 ∧
    (utf8 (Json.quote "directories".toList)).length = 13 ∧
    (utf8 (Json.quote "fresh_secs".toList)).length = 12 ∧
    (utf8 (Json.quote "items_hash".toList)).length = 12 ∧
    (utf8 (Json.quote "directory".toList)).length = 11 ∧
    (utf8 (Json.quote "head".toList)).length = 6 ∧
    (utf8 (Json.quote "at".toList)).length = 4 ∧
    (utf8 (Json.quote "until".toList)).length = 7 ∧
    (utf8 (Json.quote "alg".toList)).length = 5 ∧
    (utf8 (Json.quote "sig".toList)).length = 5 := by decide

theorem size_policyHead {h : PolicyHead} (hf : h.format = POLICY_V5) :
    (toJson h).size = 233 + listedBytes h.directories.length + h.numerals := by
  have hformat : (toJson h.format).size = 1 := by rw [hf]; decide
  have hversion : (toJson h.version).size = Json.decimals h.version.toNat := size_num _
  have hissued : (toJson h.issued).size = Json.decimals h.issued.toInt := size_num _
  have hnotAfter : (toJson h.notAfter).size = Json.decimals h.notAfter.toInt := size_num _
  have hsecs : (toJson h.freshSecs).size = Json.decimals h.freshSecs.toNat := size_num _
  rw [show toJson h = .obj [("format", toJson h.format), ("fabric", toJson h.fabric),
    ("version", toJson h.version), ("issued", toJson h.issued), ("not_after", toJson h.notAfter),
    ("directories", toJson h.directories), ("fresh_secs", toJson h.freshSecs),
    ("items_hash", toJson h.itemsHash)] from rfl]
  simp only [Json.size, Json.sizeMembers, size_keys, hformat, hversion, hissued, hnotAfter, hsecs,
    size_bytes, size_directories, PolicyHead.numerals, List.length_cons, List.length_nil]
  omega

theorem size_signedPolicyHead {h : SignedPolicyHead} (hf : h.head.format = POLICY_V5) :
    (toJson h).size = 395 + listedBytes h.head.directories.length + h.head.numerals := by
  have halg : (toJson h.alg).size = 9 := by cases h.alg; decide
  rw [show toJson h = .obj [("head", toJson h.head), ("alg", toJson h.alg), ("sig", toJson h.sig)]
    from rfl]
  simp only [Json.size, Json.sizeMembers, size_keys, halg, size_bytes, size_policyHead hf,
    List.length_cons, List.length_nil]
  omega

/-- The characters of the numbers in a word. -/
def Fresh.numerals (f : Fresh) : Nat :=
  Json.decimals f.version.toNat + Json.decimals f.at_.toInt + Json.decimals f.until_.toInt

theorem size_fresh {f : Fresh} (hf : f.format = FRESH_V1) : (toJson f).size = 420 + f.numerals := by
  have hformat : (toJson f.format).size = 1 := by rw [hf]; decide
  have halg : (toJson f.alg).size = 9 := by cases f.alg; decide
  have hversion : (toJson f.version).size = Json.decimals f.version.toNat := size_num _
  have hat : (toJson f.at_).size = Json.decimals f.at_.toInt := size_num _
  have huntil : (toJson f.until_).size = Json.decimals f.until_.toInt := size_num _
  rw [show toJson f = .obj [("format", toJson f.format), ("fabric", toJson f.fabric),
    ("directory", toJson f.directory), ("version", toJson f.version), ("head", toJson f.head),
    ("at", toJson f.at_), ("until", toJson f.until_), ("alg", toJson f.alg), ("sig", toJson f.sig)]
    from rfl]
  simp only [Json.size, Json.sizeMembers, size_keys, hformat, halg, hversion, hat, huntil,
    size_bytes, Fresh.numerals, List.length_cons, List.length_nil]
  omega

theorem Fresh.numerals_le (f : Fresh) : f.numerals ≤ 60 := by
  have hlt := f.version.toNat_lt
  have hversion := Json.decimals_le (i := f.version.toNat) (.inr (by omega))
  have hat : Json.decimals f.at_.toInt ≤ 20 := (size_num _).symm.trans_le (size_int64_le f.at_)
  have huntil : Json.decimals f.until_.toInt ≤ 20 :=
    (size_num _).symm.trans_le (size_int64_le f.until_)
  rw [Fresh.numerals]
  omega

theorem size_fresh_le {f : Fresh} (hf : f.format = FRESH_V1) : (toJson f).size ≤ 480 := by
  have hsize := size_fresh hf
  have hnumerals := f.numerals_le
  omega

/-! ## The frames a policy travels in -/

theorem size_publish (h : SignedPolicyHead) :
    (toJson (Directory.Request.publish h)).size = (toJson h).size + 26 := by
  have hsize := @size_tagged _ _ (Directory.Request.publish h) "publish" "head" _ rfl
  have hname : (toJson "publish").size = 9 := by decide
  have hkey : (utf8 (Json.quote "head".toList)).length = 6 := by decide
  omega

theorem size_items (is : List Item) :
    (toJson (Directory.Request.items is)).size = (toJson is).size + 25 := by
  have hsize := @size_tagged _ _ (Directory.Request.items is) "items" "items" _ rfl
  have hname : (toJson "items").size = 7 := by decide
  have hkey : (utf8 (Json.quote "items".toList)).length = 7 := by decide
  omega

theorem size_proofAnswer (p : HostProof) :
    (toJson (Directory.Answer.proof p)).size = (toJson p).size + 25 := by
  have hsize := @size_tagged _ _ (Directory.Answer.proof p) "proof" "proof" _ rfl
  have hname : (toJson "proof").size = 7 := by decide
  have hkey : (utf8 (Json.quote "proof".toList)).length = 7 := by decide
  omega

theorem size_proofInbox (p : HostProof) :
    (toJson (InboxFrame.proof p)).size = (toJson p).size + 25 := by
  have hsize := @size_tagged _ _ (InboxFrame.proof p) "proof" "proof" _ rfl
  have hname : (toJson "proof").size = 7 := by decide
  have hkey : (utf8 (Json.quote "proof".toList)).length = 7 := by decide
  omega

theorem size_signedPolicy (s : SignedPolicy) :
    (toJson s).size = (toJson s.head).size + (toJson s.items).size + 18 := by
  have hkeys : (utf8 (Json.quote "head".toList)).length = 6 ∧
      (utf8 (Json.quote "items".toList)).length = 7 := by decide
  rw [show toJson s = .obj [("head", toJson s.head), ("items", toJson s.items)] from rfl]
  simp only [Json.size, Json.sizeMembers, hkeys, List.length_cons, List.length_nil]
  omega

theorem size_policyAnswer (s : SignedPolicy) (f : Fresh) :
    (toJson (Directory.Answer.policy s f)).size = (toJson s).size + (toJson f).size + 36 := by
  have hkeys : (utf8 (Json.quote "type".toList)).length = 6 ∧
      (utf8 (Json.quote "policy".toList)).length = 8 ∧
      (utf8 (Json.quote "fresh".toList)).length = 7 ∧ (toJson "policy").size = 8 := by decide
  rw [show toJson (Directory.Answer.policy s f) = .obj [("type", toJson "policy"),
    ("policy", toJson s), ("fresh", toJson f)] from rfl]
  simp only [Json.size, Json.sizeMembers, hkeys, List.length_cons, List.length_nil]
  omega

/-- A subscription sends the policy in an answer's very JSON. -/
theorem toJson_policySubFrame (s : SignedPolicy) (f : Fresh) :
    toJson (Directory.SubFrame.policy s f) = toJson (Directory.Answer.policy s f) := rfl

theorem size_hostProof_le {h : SignedPolicyHead} {fs : List Fresh}
    (hfs : ∀ f ∈ fs, f.format = FRESH_V1) (hmany : fs.length ≤ MAX_FRESH_SET) :
    (toJson (HostProof.mk h fs)).size ≤ (toJson h).size + 7716 := by
  have hkeys : (utf8 (Json.quote "head".toList)).length = 6 ∧
      (utf8 (Json.quote "fresh".toList)).length = 7 := by decide
  have hwords := @Json.size_arr_le (fs.map toJson) 480 fun x hx => by
    obtain ⟨f, hf, rfl⟩ := List.mem_map.mp hx
    exact size_fresh_le (hfs f hf)
  have hlength : fs.length * 481 ≤ 16 * 481 := Nat.mul_le_mul_right 481 hmany
  rw [List.length_map] at hwords
  rw [show toJson (HostProof.mk h fs) = .obj [("head", toJson h), ("fresh", .arr (fs.map toJson))]
    from rfl, Json.size]
  simp only [Json.sizeMembers, hkeys, List.length_cons, List.length_nil]
  omega

theorem fits_publish {h : SignedPolicyHead} :
    (Sending.request (.publish h)).Fits ↔ (toJson h).size ≤ 16358 := by
  have hcap : MAX_SMALL_DIRECTORY_FRAME = 16384 ∧
      MAX_SMALL_DIRECTORY_FRAME ≤ MAX_DIRECTORY_FRAME := by decide
  apply (encodeFrame_within hcap.2).trans
  rw [size_publish]
  omega

/-! ## Every frame of a signed policy -/

/-- A signed policy is published, sent whole with each of some words, and shown with any sixteen of
them, within what each frame's reader takes. -/
structure Served (s : SignedPolicy) (words : List Fresh) : Prop where
  /-- A directory reads the head. -/
  published : (Sending.request (.publish s.head)).Fits
  /-- A host or a directory reads the policy it asked for. -/
  fetched : ∀ f ∈ words, (Sending.answer (.policy s f)).Fits
  /-- A subscriber reads it. -/
  followed : ∀ f ∈ words, (Sending.subFrame (.policy s f)).Fits
  /-- A caller reads a directory's proof. -/
  opened : ∀ fs, (∀ f ∈ fs, f ∈ words) → fs.length ≤ MAX_FRESH_SET →
    (Sending.firstAnswer (.proof ⟨s.head, fs⟩)).Fits
  /-- A caller reads a host's proof. -/
  dialed : ∀ fs, (∀ f ∈ fs, f ∈ words) → fs.length ≤ MAX_FRESH_SET →
    ∃ bs, (Frame.proof ⟨s.head, fs⟩).encode = .ok bs ∧ bs.length ≤ 4 + MAX_HELLO_FRAME
  /-- A caller that fetches its inbox reads it. -/
  inboxed : ∀ fs, (∀ f ∈ fs, f ∈ words) → fs.length ≤ MAX_FRESH_SET →
    (Sending.inboxOpening (.proof ⟨s.head, fs⟩)).Fits

namespace Policy

/-- The characters of the numbers in the head of a policy. -/
def numerals (p : Policy) : Nat :=
  Json.decimals p.version.toNat + Json.decimals p.issued.toInt + Json.decimals p.notAfter.toInt +
    Json.decimals p.settings.freshSecs.toNat

/-- The directories are few enough for the head to be published. -/
def FewDirectories (p : Policy) : Prop :=
  listedBytes p.directories.length + p.numerals ≤ 15963

/-- Behind an items frame of so many bytes there is room for the head and a word. -/
def LeavesRoom (p : Policy) (itemsFrame : Nat) (f : Fresh) : Prop :=
  itemsFrame + listedBytes p.directories.length + p.numerals + f.numerals + 840 ≤
    MAX_DIRECTORY_FRAME

end Policy

section

variable [Crypto] {p : Policy} {root : NodeIdentity} {previous : Option SignedPolicy}
  {s : SignedPolicy} {words : List Fresh} {items : List UInt8}

theorem size_signedHead (hs : p.signWith root previous = .ok s) :
    (toJson s.head).size = 395 + listedBytes p.directories.length + p.numerals := by
  obtain ⟨-, -, rfl⟩ := Policy.signWith_eq_ok.mp hs
  exact size_signedPolicyHead rfl

/-- A signed policy is served exactly when its directories are few enough, and its items leave room
for the head and each word. -/
theorem served_iff (hs : p.signWith root previous = .ok s)
    (hitems : (Directory.Request.items s.items).encode = .ok items)
    (hwords : ∀ f ∈ words, f.verify s.head = .ok ()) :
    Served s words ↔ p.FewDirectories ∧ ∀ f ∈ words, p.LeavesRoom items.length f := by
  have hhead := size_signedHead hs
  have hformat : ∀ f ∈ words, f.format = FRESH_V1 := fun f hf =>
    (Fresh.verify_eq_ok.mp (hwords f hf)).1
  have hlength : items.length = 4 + ((toJson s.items).size + 25) := by
    rw [(length_encodeFrame hitems).1, length_canonicalBytes, size_items]
  -- the head alone is what the first condition is about
  have hfew : (Sending.request (.publish s.head)).Fits ↔ p.FewDirectories := by
    rw [fits_publish, Policy.FewDirectories, hhead]
    omega
  have hroom : ∀ f ∈ words, (Sending.answer (.policy s f)).Fits ↔ p.LeavesRoom items.length f :=
    fun f hf => by
      have hword := size_fresh (hformat f hf)
      apply (encodeFrame_within le_rfl).trans
      rw [size_policyAnswer, size_signedPolicy, Policy.LeavesRoom, hhead, hword, hlength]
      omega
  have hproof : p.FewDirectories → ∀ fs, (∀ f ∈ fs, f ∈ words) → fs.length ≤ MAX_FRESH_SET →
      (toJson (HostProof.mk s.head fs)).size ≤ 25000 := by
    intro hdirs fs hfs hmany
    have hsize := size_hostProof_le (h := s.head) (fun f hf => hformat f (hfs f hf)) hmany
    rw [Policy.FewDirectories] at hdirs
    omega
  constructor
  · intro h
    exact ⟨hfew.mp h.published, fun f hf => (hroom f hf).mp (h.fetched f hf)⟩
  · intro ⟨hdirs, hrooms⟩
    exact {
      published := hfew.mpr hdirs
      fetched := fun f hf => (hroom f hf).mpr (hrooms f hf)
      followed := fun f hf => by
        apply (encodeFrame_within le_rfl).mpr
        rw [toJson_policySubFrame]
        exact (encodeFrame_within le_rfl).mp ((hroom f hf).mpr (hrooms f hf))
      opened := fun fs hfs hmany => by
        have hsize := hproof hdirs fs hfs hmany
        have hcap : Directory.MAX_PROOF_FRAME = 65536 ∧
            Directory.MAX_PROOF_FRAME ≤ MAX_DIRECTORY_FRAME := by decide
        apply (encodeFrame_within hcap.2).mpr
        rw [size_proofAnswer]
        omega
      dialed := fun fs hfs hmany => by
        have hsize := hproof hdirs fs hfs hmany
        have hcap : MAX_HELLO_FRAME = 65536 := by decide
        apply (encode_within (by decide)).mpr
        rw [show (Frame.proof ⟨s.head, fs⟩).body = canonicalBytes (HostProof.mk s.head fs) from rfl,
          length_canonicalBytes]
        omega
      inboxed := fun fs hfs hmany => by
        have hsize := hproof hdirs fs hfs hmany
        have hcaps : MAX_INBOX_HELLO = 65536 ∧ MAX_INBOX_FRAME = 4194304 := by decide
        have hbody : (canonicalBytes (InboxFrame.proof ⟨s.head, fs⟩)).length ≤ MAX_INBOX_HELLO := by
          rw [length_canonicalBytes, size_proofInbox]
          omega
        obtain ⟨bs, he, -⟩ := encode_inbox (f := .proof ⟨s.head, fs⟩) rfl (by omega)
        refine ⟨bs, he, ?_⟩
        rw [(InboxFrame.length_encode he).1]
        exact Nat.add_le_add_left hbody 4 }

end

/-! ## A policy of many directories -/

section Sample

attribute [local instance] Crypto.plain

/-- So many directories, each with a key of its own. -/
def sampleDirectories (n : Nat) : List NodeId :=
  (List.range n).map fun i => sampleNode (UInt8.ofNat i)

/-- A policy of nothing but directories. -/
def crowdedPolicy (n : Nat) : Policy :=
  { Policy.new (nodeId sampleRoot) with
    version := 1
    notAfter := 10000
    directories := sampleDirectories n }

theorem nodup_sampleDirectories {n : Nat} (h : n ≤ 256) : (sampleDirectories n).Nodup := by
  apply List.Nodup.map_on
  · intro i hi j hj hij
    have hi' := List.mem_range.mp hi
    have hj' := List.mem_range.mp hj
    have hbyte := congrArg UInt8.toNat (Bytes.fill_injective (by decide) hij)
    rw [UInt8.toNat_ofNat', UInt8.toNat_ofNat'] at hbyte
    omega
  · exact List.nodup_range

theorem validate_crowdedPolicy {n : Nat} (h : n ≤ 256) : (crowdedPolicy n).validate = .ok () := by
  have hrepeat := firstRepeat_nil_eq_none.mpr (nodup_sampleDirectories h)
  have hbanned : (sampleDirectories n).find? (crowdedPolicy n).bansNode = none :=
    List.find?_eq_none.mpr fun d _ => by
      show ¬false = true
      decide
  rw [Policy.validate, show (crowdedPolicy n).directories = sampleDirectories n from rfl, hrepeat,
    hbanned]
  rfl

theorem signWith_crowdedPolicy {n : Nat} (h : n ≤ 256) :
    (crowdedPolicy n).signWith sampleRoot none = .ok ((crowdedPolicy n).signed sampleRoot none) :=
  Policy.signWith_eq_ok.mpr ⟨rfl, validate_crowdedPolicy h, rfl⟩

/-- The items of a policy of nothing but directories are its settings. -/
theorem encode_crowdedItems (n : Nat) : ∃ bs,
    (Directory.Request.items ((crowdedPolicy n).signed sampleRoot none).items).encode = .ok bs ∧
      bs.length ≤ 4 + 1000 :=
  @encodeFrame_within _ _ (Directory.Request.items [.settings .default]) 1000 (by decide) |>.mpr
    (by decide)

/-- With one directory there is room for everything. -/
theorem served_sample : ∃ f, Fresh.sign (0 : UInt8) ((crowdedPolicy 1).signed sampleRoot none).head
    0 100 = .ok f ∧ Served ((crowdedPolicy 1).signed sampleRoot none) [f] := by
  have hsign : ∃ f, Fresh.sign (0 : UInt8) ((crowdedPolicy 1).signed sampleRoot none).head 0 100 =
    .ok f := ⟨_, rfl⟩
  obtain ⟨f, hf⟩ := hsign
  obtain ⟨bs, hbs, hlength⟩ := encode_crowdedItems 1
  have hwords : ∀ g ∈ [f], g.verify ((crowdedPolicy 1).signed sampleRoot none).head = .ok () :=
    fun g hg => by
      rw [List.mem_singleton.mp hg]
      exact (Fresh.of_sign hf).1
  refine ⟨f, hf, (served_iff (signWith_crowdedPolicy (by decide)) hbs hwords).mpr
    ⟨?_, fun g _ => ?_⟩⟩
  · show (_ : Nat) ≤ _
    decide
  · have hnumerals := g.numerals_le
    have hdirs : listedBytes (crowdedPolicy 1).directories.length = 66 := by decide
    have hpnumerals : (crowdedPolicy 1).numerals = 10 := by decide
    have hcap : MAX_DIRECTORY_FRAME = 16777216 := by decide
    rw [Policy.LeavesRoom]
    omega

/-- Two hundred and fifty directories: the policy is valid and signed, and a directory does not
read its head. -/
theorem not_served : ¬∀ (p : Policy) (root : NodeIdentity) (previous : Option SignedPolicy)
    (s : SignedPolicy) (words : List Fresh) (items : List UInt8),
    p.signWith root previous = .ok s → (Directory.Request.items s.items).encode = .ok items →
    (∀ f ∈ words, f.verify s.head = .ok ()) → Served s words := by
  intro hall
  obtain ⟨bs, hbs, -⟩ := encode_crowdedItems 250
  have hpolicy := signWith_crowdedPolicy (n := 250) (by decide)
  have hserved := hall _ sampleRoot none _ [] bs hpolicy hbs (by simp)
  have hsize := fits_publish.mp hserved.published
  have hdirs : listedBytes (crowdedPolicy 250).directories.length = 16749 := by
    rw [show (crowdedPolicy 250).directories = sampleDirectories 250 from rfl, sampleDirectories,
      List.length_map, List.length_range, listedBytes]
  rw [size_signedHead hpolicy] at hsize
  omega

end Sample

end Wires
