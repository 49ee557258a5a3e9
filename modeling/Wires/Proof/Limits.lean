import Mathlib.Data.Nat.Digits.Defs
import Wires.Framework.JsonSize
import Wires.Proof.Readers

/-!
# Senders' and receivers' limits

Whether what the directory's and the inbox's encoders accept is read at the
point of the exchange where it is sent. `Sending` is a message at such a
point, `Sending.cap` the longest body read there. A message is received exactly
when its email patterns are parsed and its body is within that cap
(`limits_agree`); for all but tokens, queries, heads and proofs the encoder
sees to the cap.
-/

namespace Wires

/-! ## The frames' JSON -/

theorem reads_view (v : View) : Reads v := reads_of_obj rfl fun _ _ hσ hp =>
  fields_bind hp (by simp) (by simp)
    (field_bind hσ (reads_signedPolicyHead _) rfl
      (field_bind hσ (reads_list fun e _ => reads_signedEntry e) rfl rfl))

namespace Directory

/-- The email patterns of a request's items are results of parsing. -/
def Request.Parsed : Request → Prop
  | .items is => ∀ i ∈ is, i.Parsed
  | _ => True

/-- The email patterns of an answer's policy are results of parsing. -/
def Answer.Parsed : Answer → Prop
  | .policy p _ => p.Parsed
  | _ => True

/-- The email patterns of a frame's policy are results of parsing. -/
def SubFrame.Parsed : SubFrame → Prop
  | .policy p _ => p.Parsed
  | _ => True

theorem reads_request {r : Request} (h : r.Parsed) : Reads r := by
  refine reads_of_tagged "type" r.typeName r.members Request.ofType rfl (fun _ => rfl) ?_
    fun σ ns hσ hp => ?_
  · cases r with
    | hello o => cases o <;> simp [Request.members, optMember]
    | view o => cases o <;> simp [Request.members, optMember]
    | _ => simp [Request.members]
  · cases r with
    | opens => exact fields_bind hp (by simp [Request.members]) (by simp [Request.members]) rfl
    | hello o =>
      exact fields_bind hp (by cases o <;> simp [Request.members, optMember])
        (by cases o <;> simp [Request.members, optMember])
        (optField_bind hσ (o := o) (fun t _ => ⟨reads_string t, by simp [toJson]⟩)
          (by cases o <;> rfl) rfl)
    | publish head =>
      exact fields_bind hp (by simp [Request.members]) (by simp [Request.members])
        (field_bind hσ (reads_signedPolicyHead _) rfl rfl)
    | items is =>
      exact fields_bind hp (by simp [Request.members]) (by simp [Request.members])
        (field_bind hσ (reads_list fun i hi => Item.reads (h i hi)) rfl rfl)
    | policy v =>
      exact fields_bind hp (by simp [Request.members]) (by simp [Request.members])
        (field_bind hσ (reads_uint64 _) rfl rfl)
    | view o =>
      exact fields_bind hp (by cases o <;> simp [Request.members, optMember])
        (by cases o <;> simp [Request.members, optMember])
        (optField_bind hσ (o := o) (fun t _ => ⟨reads_string t, by simp [toJson]⟩)
          (by cases o <;> rfl) rfl)
    | resolve s =>
      exact fields_bind hp (by simp [Request.members]) (by simp [Request.members])
        (field_bind hσ (reads_serviceName _) rfl rfl)

theorem reads_answer {a : Answer} (h : a.Parsed) : Reads a := by
  refine reads_of_tagged "type" a.typeName a.members Answer.ofType rfl (fun _ => rfl) ?_
    fun σ ns hσ hp => ?_
  · cases a <;> simp [Answer.members]
  · cases a with
    | proof p =>
      exact fields_bind hp (by simp [Answer.members]) (by simp [Answer.members])
        (field_bind hσ (reads_hostProof _) rfl rfl)
    | published v hash =>
      exact fields_bind hp (by simp [Answer.members]) (by simp [Answer.members])
        (field_bind hσ (reads_uint64 _) rfl (field_bind hσ (reads_bytes _) rfl rfl))
    | current f =>
      exact fields_bind hp (by simp [Answer.members]) (by simp [Answer.members])
        (field_bind hσ (reads_fresh _) rfl rfl)
    | policy p f =>
      exact fields_bind hp (by simp [Answer.members]) (by simp [Answer.members])
        (field_bind hσ (reads_signedPolicy h) rfl (field_bind hσ (reads_fresh _) rfl rfl))
    | view v f =>
      exact fields_bind hp (by simp [Answer.members]) (by simp [Answer.members])
        (field_bind hσ (reads_view _) rfl (field_bind hσ (reads_fresh _) rfl rfl))
    | denied reason =>
      exact fields_bind hp (by simp [Answer.members]) (by simp [Answer.members])
        (field_bind hσ (reads_string _) rfl rfl)

theorem reads_subRequest (r : SubRequest) : Reads r := by
  refine reads_of_tagged "type" r.typeName r.members SubRequest.ofType rfl (fun _ => rfl) ?_
    fun σ ns hσ hp => ?_
  · cases r with
    | hello o => cases o <;> simp [SubRequest.members, optMember]
    | subscribe v => simp [SubRequest.members]
  · cases r with
    | hello o =>
      exact fields_bind hp (by cases o <;> simp [SubRequest.members, optMember])
        (by cases o <;> simp [SubRequest.members, optMember])
        (optField_bind hσ (o := o) (fun t _ => ⟨reads_string t, by simp [toJson]⟩)
          (by cases o <;> rfl) rfl)
    | subscribe v =>
      exact fields_bind hp (by simp [SubRequest.members]) (by simp [SubRequest.members])
        (field_bind hσ (reads_uint64 _) rfl rfl)

theorem reads_subFrame {s : SubFrame} (h : s.Parsed) : Reads s := by
  refine reads_of_tagged "type" s.typeName s.members SubFrame.ofType rfl (fun _ => rfl) ?_
    fun σ ns hσ hp => ?_
  · cases s <;> simp [SubFrame.members]
  · cases s with
    | policy p f =>
      exact fields_bind hp (by simp [SubFrame.members]) (by simp [SubFrame.members])
        (field_bind hσ (reads_signedPolicy h) rfl (field_bind hσ (reads_fresh _) rfl rfl))
    | fresh f =>
      exact fields_bind hp (by simp [SubFrame.members]) (by simp [SubFrame.members])
        (field_bind hσ (reads_fresh _) rfl rfl)
    | denied reason =>
      exact fields_bind hp (by simp [SubFrame.members]) (by simp [SubFrame.members])
        (field_bind hσ (reads_string _) rfl rfl)

end Directory

theorem Subject.new_text (s : Subject) : Subject.new s.text = .ok s := by
  rw [Subject.new]
  split
  · rename_i why h
    rw [s.valid] at h
    cases h
  · rfl

theorem reads_subject (s : Subject) : Reads s := fun σ hσ => by
  show ofJsonText Subject.new _ = _
  rw [ofJsonText, show toJson s = toJson s.text from rfl, reads_string s.text σ hσ,
    Option.bind_some, Subject.new_text]
  rfl

theorem reads_pushBody (b : PushBody) : Reads b := fun σ hσ => by
  show ofJsonText PushBody.new _ = _
  rw [ofJsonText, show toJson b = toJson b.text from rfl, reads_string b.text σ hσ,
    Option.bind_some, PushBody.new, dif_pos b.valid]
  rfl

theorem reads_pushMessage (m : PushMessage) : Reads m := reads_of_obj rfl fun _ _ hσ hp =>
  openFields_bind hp (by simp) (by simp)
    (field_bind hσ (reads_bytes _) rfl
      (field_bind hσ (reads_bytes _) rfl
        (field_bind hσ (reads_bytes _) rfl
          (field_bind hσ (reads_subject _) rfl
            (field_bind hσ (reads_pushBody _) rfl
              (field_bind hσ (reads_int64 _) rfl
                (field_bind hσ (reads_int64 _) rfl rfl)))))))

theorem reads_inboxFrame (f : InboxFrame) : Reads f := by
  refine reads_of_tagged "type" f.typeName f.members InboxFrame.ofType rfl (fun _ => rfl) ?_
    fun σ ns hσ hp => ?_
  · cases f with
    | hello o => cases o <;> simp [InboxFrame.members, optMember]
    | _ => simp [InboxFrame.members]
  · cases f with
    | opens =>
      exact openFields_bind hp (by simp [InboxFrame.members]) (by simp [InboxFrame.members]) rfl
    | proof p =>
      exact openFields_bind hp (by simp [InboxFrame.members]) (by simp [InboxFrame.members])
        (field_bind hσ (reads_hostProof _) rfl rfl)
    | hello o =>
      exact openFields_bind hp (by cases o <;> simp [InboxFrame.members, optMember])
        (by cases o <;> simp [InboxFrame.members, optMember])
        (optField_bind hσ (o := o) (fun t _ => ⟨reads_string t, by simp [toJson]⟩)
          (by cases o <;> rfl) rfl)
    | fetch n =>
      exact openFields_bind hp (by simp [InboxFrame.members]) (by simp [InboxFrame.members])
        (field_bind hσ (reads_uint64 _) rfl rfl)
    | deliver ms =>
      exact openFields_bind hp (by simp [InboxFrame.members]) (by simp [InboxFrame.members])
        (field_bind hσ (reads_list fun m _ => reads_pushMessage m) rfl rfl)
    | ack ids =>
      exact openFields_bind hp (by simp [InboxFrame.members]) (by simp [InboxFrame.members])
        (field_bind hσ (reads_list fun i _ => reads_bytes i) rfl rfl)
    | denied reason =>
      exact openFields_bind hp (by simp [InboxFrame.members]) (by simp [InboxFrame.members])
        (field_bind hσ (reads_string _) rfl rfl)

/-! ## What is decoded is parsed -/

namespace Directory

theorem Request.parsed_of_ofJson {j : Json} {r : Request} (h : ofJson j = some r) : r.Parsed := by
  obtain ⟨p, -, h⟩ := Option.bind_eq_some_iff.mp (show (j.tagged "type").bind _ = some r from h)
  cases r with
  | items is =>
    rw [Request.ofType.eq_def] at h
    split at h
    case h_4 =>
      obtain ⟨f, -, h⟩ := Option.bind_eq_some_iff.mp h
      obtain ⟨is', hi, h⟩ := Option.bind_eq_some_iff.mp h
      cases h
      obtain ⟨j', -, hj'⟩ := Option.bind_eq_some_iff.mp hi
      exact fun i hm => Item.parsed_of_ofJson (mem_of_ofJson_list hj' i hm).choose_spec
    case h_8 => cases h
    all_goals
      obtain ⟨f, -, h⟩ := Option.bind_eq_some_iff.mp h
      simp [Option.bind_eq_some_iff] at h
  | _ => trivial

theorem Answer.parsed_of_ofJson {j : Json} {a : Answer} (h : ofJson j = some a) : a.Parsed := by
  obtain ⟨p, -, h⟩ := Option.bind_eq_some_iff.mp (show (j.tagged "type").bind _ = some a from h)
  cases a with
  | policy p f =>
    rw [Answer.ofType.eq_def] at h
    split at h
    case h_4 =>
      obtain ⟨f, -, h⟩ := Option.bind_eq_some_iff.mp h
      obtain ⟨p', hp, h⟩ := Option.bind_eq_some_iff.mp h
      obtain ⟨f', -, h⟩ := Option.bind_eq_some_iff.mp h
      cases h
      obtain ⟨j', -, hj'⟩ := Option.bind_eq_some_iff.mp hp
      exact SignedPolicy.parsed_of_ofJson hj'
    case h_7 => cases h
    all_goals
      obtain ⟨f, -, h⟩ := Option.bind_eq_some_iff.mp h
      simp [Option.bind_eq_some_iff] at h
  | _ => trivial

theorem SubFrame.parsed_of_ofJson {j : Json} {s : SubFrame} (h : ofJson j = some s) :
    s.Parsed := by
  obtain ⟨p, -, h⟩ := Option.bind_eq_some_iff.mp (show (j.tagged "type").bind _ = some s from h)
  cases s with
  | policy p f =>
    rw [SubFrame.ofType.eq_def] at h
    split at h
    case h_1 =>
      obtain ⟨f, -, h⟩ := Option.bind_eq_some_iff.mp h
      obtain ⟨p', hp, h⟩ := Option.bind_eq_some_iff.mp h
      obtain ⟨f', -, h⟩ := Option.bind_eq_some_iff.mp h
      cases h
      obtain ⟨j', -, hj'⟩ := Option.bind_eq_some_iff.mp hp
      exact SignedPolicy.parsed_of_ofJson hj'
    case h_4 => cases h
    all_goals
      obtain ⟨f, -, h⟩ := Option.bind_eq_some_iff.mp h
      simp [Option.bind_eq_some_iff] at h
  | _ => trivial

end Directory

/-- A value reads back from its bytes exactly when its patterns are parsed. -/
theorem fromSlice_iff {α : Type} [Serde α] {Parsed : α → Prop}
    (hreads : ∀ a, Parsed a → Reads a) (hof : ∀ j a, ofJson j = some a → Parsed a) (a : α) :
    fromSlice (canonicalBytes a) = some a ↔ Parsed a := by
  refine ⟨fun h => ?_, fun h => (hreads a h).bytes⟩
  obtain ⟨cs, -, h⟩ := Option.bind_eq_some_iff.mp h
  obtain ⟨j, -, h⟩ := Option.bind_eq_some_iff.mp h
  exact hof j a h

/-! ## Reading what was encoded -/

section

variable {F : Type} {decode : Decoder F Error} {cap : Nat} {s : Stream} {bs rest : List UInt8}

/-- What a reader takes off a stream that starts with a frame: that frame's value, if it is not
over the cap and decodes. -/
theorem ReadsFirst.yields_iff {out : Except Anyhow (Option F) × Stream}
    (h : ReadsFirst decode cap s out) (hd : SplitsFrames decode) {body : List UInt8}
    (hb : lengthPrefixed body = some bs) (hs : s.bytes = bs ++ rest) (f : F) :
    (out.1 = .ok (some f) ∧ out.2.bytes = rest) ↔
      decode bs = .ok (some (f, bs.length)) ∧ bs.length ≤ 4 + cap := by
  obtain ⟨hlt, hbs⟩ := lengthPrefixed_eq_some.mp hb
  have hlen : bs.length = 4 + body.length := by rw [hbs, List.length_append, length_be32]
  have hpre : prefixLen s.bytes = some body.length := by
    rw [hs, hbs, List.append_assoc, prefixLen_be32 hlt]
  have hle : 4 + body.length ≤ s.bytes.length := by
    rw [hs, List.length_append]
    omega
  have htake : s.bytes.take (4 + body.length) = bs := by rw [hs, ← hlen, List.take_left]
  have hdec : decode bs = decode s.bytes := by rw [← htake, hd.decode_take hpre hle]
  have hagrees := (h.agrees_iff hd).mpr fun hends => by
    have := hends.2.2
    omega
  constructor
  · rintro ⟨ho, -⟩
    obtain ⟨n, hn, hcap⟩ := (hagrees.frame f).mp ho
    obtain rfl : n = bs.length := by rw [length_of_frame hd hn hpre, hlen]
    exact ⟨hdec ▸ hn, hcap⟩
  · rintro ⟨hf, hcap⟩
    rw [hdec] at hf
    refine ⟨(hagrees.frame f).mpr ⟨bs.length, hf, hcap⟩, ?_⟩
    rw [hagrees.taken f _ hf hcap, hs, List.drop_left]

theorem decodeFrame_encoded {α : Type} [Serde α] {max : Nat} {a : α}
    (hb : lengthPrefixed (canonicalBytes a) = some bs) :
    decodeFrame max bs = .ok (some (a, bs.length)) ↔
      fromSlice (canonicalBytes a) = some a ∧ bs.length ≤ 4 + max := by
  have hsplit := splitFrame_append hb []
  rw [List.append_nil] at hsplit
  obtain ⟨hlt, hbs⟩ := lengthPrefixed_eq_some.mp hb
  have hlen : bs.length = 4 + (canonicalBytes a).length := by
    rw [hbs, List.length_append, length_be32]
  have hpre : prefixLen bs = some (canonicalBytes a).length := by rw [hbs, prefixLen_be32 hlt]
  rw [decodeFrame, hpre, hsplit]
  by_cases hmax : max < (canonicalBytes a).length
  · have : ¬bs.length ≤ 4 + max := by omega
    simp [hmax, this]
  · have hle : bs.length ≤ 4 + max := by omega
    simp [hmax, hle]

/-- A directory's reader takes an encoded frame exactly when its patterns are parsed and it is
within the reader's cap. -/
theorem readCapped_encoded {α : Type} [Serde α] {max : Nat} {a : α} (hmax : cap ≤ max)
    (he : encodeFrame a = .ok bs) (hs : s.bytes = bs ++ rest) :
    ((Directory.readCapped s cap (decodeFrame max)).1 = .ok (some a) ∧
      (Directory.readCapped s cap (decodeFrame max : Decoder α Error)).2.bytes = rest) ↔
      fromSlice (canonicalBytes a) = some a ∧ bs.length ≤ 4 + cap := by
  have hb : lengthPrefixed (canonicalBytes a) = some bs := by
    rw [encodeFrame] at he
    split at he
    · cases he
    · exact orError_eq_ok.mp he
  rw [(readCapped_reads decodeFrame_splits s cap).yields_iff decodeFrame_splits hb hs,
    decodeFrame_encoded hb]
  constructor
  · rintro ⟨⟨hf, -⟩, hcap⟩
    exact ⟨hf, hcap⟩
  · rintro ⟨hf, hcap⟩
    exact ⟨⟨hf, by omega⟩, hcap⟩

theorem readInboxFrameWithin_encoded {f : InboxFrame} (he : f.encode = .ok bs)
    (hs : s.bytes = bs ++ rest) :
    ((readInboxFrameWithin s cap).1 = .ok (some f) ∧ (readInboxFrameWithin s cap).2.bytes = rest) ↔
      bs.length ≤ 4 + cap := by
  obtain ⟨_, hcheck, he⟩ := bind_eq_ok.mp he
  obtain ⟨_, hmax, he⟩ := bind_eq_ok.mp he
  have hb := orError_eq_ok.mp he
  have hle : (canonicalBytes f).length ≤ MAX_INBOX_FRAME := by
    have := ensure_eq_ok.mp hmax
    omega
  have hsplit := splitFrame_append hb []
  rw [List.append_nil] at hsplit
  obtain ⟨hlt, hbs⟩ := lengthPrefixed_eq_some.mp hb
  have hpre : prefixLen bs = some (canonicalBytes f).length := by rw [hbs, prefixLen_be32 hlt]
  have hdec : InboxFrame.decode bs = .ok (some (f, bs.length)) := by
    rw [InboxFrame.decode, InboxFrame.length, hpre, hsplit]
    simp only [gt_iff_lt, if_neg (not_lt.mpr hle), (reads_inboxFrame f).bytes, orError_some, ok_bind,
      hcheck]
    rfl
  rw [(readInboxFrameWithin_reads s cap).yields_iff InboxFrame.splits hb hs]
  exact and_iff_right hdec

end

/-! ## Messages at their places -/

/-- A message at the place of an exchange where it is sent. -/
inductive Sending where
  /-- The frame that opens a request stream, or follows the directory's proof. -/
  | opening (r : Directory.Request)
  | request (r : Directory.Request)
  /-- What follows a publish's head. -/
  | items (items : List Item)
  /-- The answer to `open`. -/
  | firstAnswer (a : Directory.Answer)
  | answer (a : Directory.Answer)
  | subRequest (r : Directory.SubRequest)
  | subFrame (f : Directory.SubFrame)
  /-- An inbox frame sent while its receiver does not know the peer. -/
  | inboxOpening (f : InboxFrame)
  | inbox (f : InboxFrame)

namespace Sending

/-- What the sender's encoder makes of it. -/
def encode : Sending → Result (List UInt8)
  | opening r => r.encode
  | request r => r.encode
  | items is => (Directory.Request.items is).encode
  | firstAnswer a => a.encode
  | answer a => a.encode
  | subRequest r => r.encode
  | subFrame f => f.encode
  | inboxOpening f => f.encode
  | inbox f => f.encode

/-- The longest body the receiver's reader takes there. -/
def cap : Sending → Nat
  | opening _ | request _ | subRequest _ => MAX_SMALL_DIRECTORY_FRAME
  | firstAnswer _ => Directory.MAX_PROOF_FRAME
  | items _ | answer _ | subFrame _ => MAX_DIRECTORY_FRAME
  | inboxOpening _ => MAX_INBOX_HELLO
  | inbox _ => MAX_INBOX_FRAME

/-- A reader returned this value, and left these bytes. -/
def Yields {F : Type} (out : Except Anyhow F × Stream) (f : F) (rest : List UInt8) : Prop :=
  out.1 = .ok f ∧ out.2.bytes = rest

/-- The receiver's reader takes the message off the stream, and leaves the rest. -/
def Received (s : Stream) (rest : List UInt8) : Sending → Prop
  | opening r => Yields (Directory.readHello s) r rest
  | request r => Yields (Directory.readRequest s) r rest
  | items is => Yields (Directory.readItems s) is rest
  | firstAnswer a => Yields (Directory.readOpening s) a rest
  | answer a => Yields (Directory.readAnswer s) a rest
  | subRequest r => Yields (Directory.readSubRequest s) r rest
  | subFrame f => Yields (Directory.readSubFrame s) (some f) rest
  | inboxOpening f => Yields (readInboxFrameWithin s MAX_INBOX_HELLO) (some f) rest
  | inbox f => Yields (readInboxFrame s) (some f) rest

/-- Its email patterns, if it has any, are results of parsing. -/
def Parsed : Sending → Prop
  | opening r => r.Parsed
  | request r => r.Parsed
  | items is => ∀ i ∈ is, i.Parsed
  | firstAnswer a => a.Parsed
  | answer a => a.Parsed
  | subFrame f => f.Parsed
  | _ => True

/-- Its encoder keeps it within the receiver's cap. -/
def Capped : Sending → Prop
  | opening r => r = .opens
  | request r => (∃ v, r = .policy v) ∨ ∃ n, r = .resolve n
  | subRequest r => ∃ v, r = .subscribe v
  | inboxOpening f => f = .opens ∨ ∃ w, f = .fetch w
  | firstAnswer _ => False
  | _ => True

end Sending

/-! ## The size of small frames -/

namespace Json

theorem length_escapeChar_bounds (c : Char) :
    1 ≤ (escapeChar c).length ∧ (escapeChar c).length ≤ 6 := by
  rw [escapeChar]
  split_ifs <;> simp

theorem length_quote_bounds (cs : List Char) :
    cs.length ≤ (quote cs).length ∧ (quote cs).length ≤ 6 * cs.length + 2 := by
  have h : cs.length ≤ (cs.flatMap escapeChar).length ∧
      (cs.flatMap escapeChar).length ≤ 6 * cs.length := by
    induction cs with
    | nil => simp
    | cons c cs ih =>
      have := length_escapeChar_bounds c
      rw [List.flatMap_cons, List.length_append, List.length_cons]
      omega
  rw [quote]
  simp only [List.length_cons, List.length_append, List.length_nil]
  omega

theorem length_number_le (n : UInt64) : (number n.toNat).length ≤ 20 := by
  rw [number, if_neg (by omega), Int.natAbs_natCast]
  exact Nat.toDigits_length 10 n.toNat 20 (by omega) (n.toNat_lt.trans (by decide))

/-- The text of a tagged object with one more member, in whichever order the two stand. -/
theorem length_tagged (t : List Char) (k : String) {v : Json} (hv : v.sortKeys = v) :
    (canonical (.obj [("type", .str t), (k, v)])).length =
      (quote t).length + (quote k.toList).length + v.compact.length + 11 := by
  have hq : (quote "type".toList).length = 6 := by decide
  rw [sortKeys] at hv
  rw [canonical, sortKeys, arrange, arrangeMembers, arrangeMembers, arrangeMembers, arrange, hv]
  have hsort : sortMembers [("type", str t), (k, v)] = [("type", str t), (k, v)] ∨
      sortMembers [("type", str t), (k, v)] = [(k, v), ("type", str t)] := by
    by_cases h : "type" ≤ k
    · exact .inl (by simp [sortMembers, List.insertionSort, h])
    · exact .inr (by simp [sortMembers, List.insertionSort, h])
  rcases hsort with h | h
  all_goals
    simp only [h, compact, compactMembers, List.length_append, List.length_cons,
      List.length_nil, hq]
    omega

end Json

/-- The bytes of a tagged object with one more member are at least its value's text, and not many
more. -/
theorem length_canonicalBytes_tagged {α : Type} [Serde α] {a : α} {t k : String} {v : Json}
    (hj : toJson a = .obj [("type", toJson t), (k, v)]) (hv : v.sortKeys = v) :
    v.compact.length < (canonicalBytes a).length ∧
      (canonicalBytes a).length ≤
        4 * (6 * t.toList.length + 6 * k.toList.length + v.compact.length + 15) := by
  have hlen := Json.length_tagged t.toList k hv
  have ht := Json.length_quote_bounds t.toList
  have hk := Json.length_quote_bounds k.toList
  have hb := length_utf8_bounds (canonicalText a)
  have hc : (canonicalText a).length = _ := (congrArg (fun j : Json => j.canonical.length) hj).trans hlen
  rw [canonicalBytes]
  omega

theorem length_encodeFrame {α : Type} [Serde α] {a : α} {bs : List UInt8}
    (h : encodeFrame a = .ok bs) :
    bs.length = 4 + (canonicalBytes a).length ∧ (canonicalBytes a).length ≤ MAX_DIRECTORY_FRAME := by
  rw [encodeFrame] at h
  split at h
  · cases h
  · rename_i hle
    have hbs := (lengthPrefixed_eq_some.mp (orError_eq_ok.mp h)).2
    rw [hbs, List.length_append, length_be32]
    exact ⟨rfl, not_lt.mp hle⟩

theorem InboxFrame.length_encode {f : InboxFrame} {bs : List UInt8} (h : f.encode = .ok bs) :
    bs.length = 4 + (canonicalBytes f).length ∧ (canonicalBytes f).length ≤ MAX_INBOX_FRAME := by
  obtain ⟨_, -, h⟩ := bind_eq_ok.mp h
  obtain ⟨_, hmax, h⟩ := bind_eq_ok.mp h
  have hbs := (lengthPrefixed_eq_some.mp (orError_eq_ok.mp h)).2
  rw [hbs, List.length_append, length_be32]
  exact ⟨rfl, not_lt.mp (ensure_eq_ok.mp hmax)⟩

theorem length_number_value (n : UInt64) : (toJson n : Json).compact.length ≤ 20 :=
  Json.length_number_le n

theorem length_serviceName_value (n : ServiceName) : (toJson n : Json).compact.length ≤ 386 := by
  have hv := n.valid
  simp only [isServiceName, Bool.and_eq_true] at hv
  have hle : byteLen n.name ≤ 64 := of_decide_eq_true hv.2
  have hbytes : (utf8 n.name.toList).length = byteLen n.name := length_utf8_toList n.name
  have hchars := length_utf8_bounds n.name.toList
  have hq := Json.length_quote_bounds n.name.toList
  show (Json.quote n.name.toList).length ≤ 386
  omega

theorem Sending.length_le_cap {m : Sending} (hm : m.Capped) {bs : List UInt8}
    (h : m.encode = .ok bs) : bs.length ≤ 4 + m.cap := by
  cases m with
  | opening r =>
    obtain rfl : r = .opens := hm
    have hlen : (canonicalBytes Directory.Request.opens).length = 15 := by decide
    change encodeFrame Directory.Request.opens = .ok bs at h
    rw [(length_encodeFrame h).1, hlen]
    decide
  | request r =>
    obtain ⟨hbs, -⟩ := length_encodeFrame (a := r) h
    have hle : (canonicalBytes r).length ≤ 16384 := by
      rcases hm with ⟨v, rfl⟩ | ⟨n, rfl⟩
      · have hv := length_number_value v
        have hc := (length_canonicalBytes_tagged (a := Directory.Request.policy v)
          (t := "policy") (k := "have") rfl rfl).2
        simp at hc
        omega
      · have hv := length_serviceName_value n
        have hc := (length_canonicalBytes_tagged (a := Directory.Request.resolve n)
          (t := "resolve") (k := "service") rfl rfl).2
        simp at hc
        omega
    rw [hbs]
    exact Nat.add_le_add_left hle 4
  | subRequest r =>
    obtain ⟨v, rfl⟩ := hm
    obtain ⟨hbs, -⟩ := length_encodeFrame (a := Directory.SubRequest.subscribe v) h
    have hv := length_number_value v
    have hc := (length_canonicalBytes_tagged (a := Directory.SubRequest.subscribe v)
      (t := "subscribe") (k := "have") rfl rfl).2
    have hle : (canonicalBytes (Directory.SubRequest.subscribe v)).length ≤ 16384 := by
      simp at hc
      omega
    rw [hbs]
    exact Nat.add_le_add_left hle 4
  | inboxOpening f =>
    have hbs := (InboxFrame.length_encode h).1
    have hle : (canonicalBytes f).length ≤ 65536 := by
      rcases hm with rfl | ⟨w, rfl⟩
      · have hlen : (canonicalBytes InboxFrame.opens).length = 15 := by decide
        omega
      · have hv := length_number_value w
        have hc := (length_canonicalBytes_tagged (a := InboxFrame.fetch w)
          (t := "fetch") (k := "wait_ms") rfl rfl).2
        simp at hc
        omega
    rw [hbs]
    exact Nat.add_le_add_left hle 4
  | firstAnswer a => exact hm.elim
  | items is =>
    obtain ⟨hbs, hle⟩ := length_encodeFrame (a := Directory.Request.items is) h
    rw [hbs]
    exact Nat.add_le_add_left hle 4
  | answer a =>
    obtain ⟨hbs, hle⟩ := length_encodeFrame (a := a) h
    rw [hbs]
    exact Nat.add_le_add_left hle 4
  | subFrame f =>
    obtain ⟨hbs, hle⟩ := length_encodeFrame (a := f) h
    rw [hbs]
    exact Nat.add_le_add_left hle 4
  | inbox f =>
    obtain ⟨hbs, hle⟩ := InboxFrame.length_encode h
    rw [hbs]
    exact Nat.add_le_add_left hle 4

/-! ## What is received -/

theorem required_eq_ok {F : Type} {why : String} {out : Except Anyhow (Option F) × Stream} {f : F} :
    (Directory.required why out).1 = .ok f ↔ out.1 = .ok (some f) := by
  rw [Directory.required]
  cases out.1 with
  | error e => simp [Except.bind]
  | ok o => simp [Except.bind]

theorem required_yields {F : Type} {why : String} {out : Except Anyhow (Option F) × Stream} {f : F}
    {rest : List UInt8} :
    Sending.Yields (Directory.required why out) f rest ↔
      out.1 = .ok (some f) ∧ out.2.bytes = rest := by
  rw [Sending.Yields, required_eq_ok]
  rfl

theorem readItems_yields {s : Stream} {is : List Item} {rest : List UInt8} :
    Sending.Yields (Directory.readItems s) is rest ↔
      Sending.Yields (Directory.required "the stream ended before the items"
        (Directory.readCapped s MAX_DIRECTORY_FRAME Directory.Request.decode)) (.items is) rest := by
  rw [Sending.Yields, Sending.Yields, Directory.readItems]
  split <;> simp_all

/-- A message that is encoded is received exactly when its email patterns are parsed and its body
is within the cap at its place, which the encoder sees to for the capped ones. -/
theorem limits_agree (m : Sending) {bs : List UInt8} (h : m.encode = .ok bs) (s : Stream)
    (rest : List UInt8) (hs : s.bytes = bs ++ rest) :
    (m.Received s rest ↔ m.Parsed ∧ bs.length ≤ 4 + m.cap) ∧
      (m.Capped → bs.length ≤ 4 + m.cap) := by
  refine ⟨?_, fun hm => Sending.length_le_cap hm h⟩
  have hrequest := fromSlice_iff (fun _ => Directory.reads_request)
    fun _ _ => Directory.Request.parsed_of_ofJson
  have hanswer := fromSlice_iff (fun _ => Directory.reads_answer)
    fun _ _ => Directory.Answer.parsed_of_ofJson
  have hsubFrame := fromSlice_iff (fun _ => Directory.reads_subFrame)
    fun _ _ => Directory.SubFrame.parsed_of_ofJson
  cases m with
  | opening r =>
    exact required_yields.trans ((readCapped_encoded (by decide) h hs).trans
      (and_congr_left' (hrequest r)))
  | request r =>
    exact required_yields.trans ((readCapped_encoded (by decide) h hs).trans
      (and_congr_left' (hrequest r)))
  | items is =>
    exact (readItems_yields.trans required_yields).trans
      ((readCapped_encoded le_rfl h hs).trans (and_congr_left' (hrequest _)))
  | firstAnswer a =>
    exact required_yields.trans ((readCapped_encoded (by decide) h hs).trans
      (and_congr_left' (hanswer a)))
  | answer a =>
    exact required_yields.trans ((readCapped_encoded le_rfl h hs).trans
      (and_congr_left' (hanswer a)))
  | subRequest r =>
    have hr : fromSlice (canonicalBytes r) = some r ↔ True :=
      iff_true_intro (Directory.reads_subRequest r).bytes
    exact required_yields.trans ((readCapped_encoded le_rfl h hs).trans (and_congr_left' hr))
  | subFrame f =>
    exact (readCapped_encoded le_rfl h hs).trans (and_congr_left' (hsubFrame f))
  | inboxOpening f => exact (readInboxFrameWithin_encoded h hs).trans (and_iff_right trivial).symm
  | inbox f => exact (readInboxFrameWithin_encoded h hs).trans (and_iff_right trivial).symm

/-- A query that fills its frame. -/
def fullQuery : Directory.Request := .view (some (String.ofList (List.replicate 16358 '7')))

theorem length_fullQuery : (canonicalBytes fullQuery).length = MAX_SMALL_DIRECTORY_FRAME := by
  obtain ⟨cs, hcs, hlen, hall⟩ : ∃ cs, cs = List.replicate 16358 '7' ∧ cs.length = 16358 ∧
      ∀ c ∈ cs, c = '7' := ⟨_, rfl, List.length_replicate, fun c => List.eq_of_mem_replicate⟩
  have hquote : (utf8 (Json.quote cs)).length = 16360 := by
    rw [Json.length_utf8_quote_plain fun c hc => by rw [hall c hc]; rfl,
      Json.length_utf8_of_digits fun c hc => by rw [hall c hc]; rfl, hlen]
  have hjson : toJson (Directory.Request.view (some (String.ofList cs))) =
      .obj [("type", .str "view".toList), ("query", toJson (String.ofList cs))] := rfl
  have hvalue : (toJson (String.ofList cs) : Json) = .str cs := congrArg Json.str String.toList_ofList
  have htype : (utf8 (Json.quote "type".toList)).length = 6 := by decide
  have hview : (utf8 (Json.quote "view".toList)).length = 6 := by decide
  have hkey : (utf8 (Json.quote "query".toList)).length = 7 := by decide
  rw [fullQuery, ← hcs, length_canonicalBytes, hjson, hvalue]
  simp only [Json.size, Json.sizeMembers, htype, hview, hkey, hquote, List.length_cons, List.length_nil]
  rfl

/-- It is received, to its last byte. -/
theorem limits_agree_full : ∃ bs, (Sending.request fullQuery).encode = .ok bs ∧
    bs.length = 4 + MAX_SMALL_DIRECTORY_FRAME ∧
    (Sending.request fullQuery).Received ⟨bs, [], .eof⟩ [] := by
  have hlength := length_fullQuery
  have hview : ∃ q, fullQuery = .view q := ⟨_, rfl⟩
  -- the query's letters are not to be computed
  generalize fullQuery = r at hlength hview ⊢
  obtain ⟨q, rfl⟩ := hview
  have hle : ¬(canonicalBytes (Directory.Request.view q)).length > MAX_DIRECTORY_FRAME := by
    rw [hlength]
    decide
  have hlt : (canonicalBytes (Directory.Request.view q)).length < 2 ^ 32 := by
    rw [hlength]
    decide
  have hencode : (Sending.request (.view q)).encode =
      .ok (be32 (canonicalBytes (Directory.Request.view q)).length ++
        canonicalBytes (Directory.Request.view q)) := by
    change encodeFrame (Directory.Request.view q) = _
    rw [encodeFrame, if_neg hle, lengthPrefixed, if_pos hlt]
    rfl
  have hlen := (length_encodeFrame hencode).1
  rw [hlength] at hlen
  exact ⟨_, hencode, hlen, (limits_agree _ hencode ⟨_, [], .eof⟩ [] (by simp)).1.mpr ⟨trivial, hlen.le⟩⟩

/-- A request between the two caps is encoded and is not received. -/
theorem not_received_of_long {r : Directory.Request}
    (h : MAX_SMALL_DIRECTORY_FRAME < (canonicalBytes r).length)
    (hle : (canonicalBytes r).length ≤ MAX_DIRECTORY_FRAME) :
    ∃ bs, (Sending.request r).encode = .ok bs ∧
      ∀ sizes ends, ¬(Sending.request r).Received ⟨bs, sizes, ends⟩ [] := by
  have hlt : (canonicalBytes r).length < 2 ^ 32 := hle.trans_lt (by decide)
  have he : encodeFrame r = .ok (be32 (canonicalBytes r).length ++ canonicalBytes r) := by
    rw [encodeFrame, if_neg (not_lt.mpr hle), lengthPrefixed, if_pos hlt]
    rfl
  refine ⟨_, he, fun sizes ends hrec => ?_⟩
  have hlen := ((readCapped_encoded (by decide) he (List.append_nil _).symm).mp
    (required_yields.mp hrec)).2
  rw [(length_encodeFrame he).1] at hlen
  omega

/-- A query's bytes, by its length. -/
theorem length_query_bounds (cs : List Char) :
    cs.length < (canonicalBytes (Directory.Request.view (some (String.ofList cs)))).length ∧
      (canonicalBytes (Directory.Request.view (some (String.ofList cs)))).length ≤
        24 * cs.length + 300 := by
  have hvalue : (toJson (String.ofList cs) : Json) = .str cs :=
    congrArg Json.str String.toList_ofList
  have hbytes := length_canonicalBytes_tagged (a := Directory.Request.view (some (String.ofList cs)))
    (t := "view") (k := "query") (v := .str cs) (by rw [← hvalue]; rfl) rfl
  have hquote := Json.length_quote_bounds cs
  have hview : "view".toList.length = 4 := by decide
  have hkey : "query".toList.length = 5 := by decide
  rw [hview, hkey, Json.compact] at hbytes
  omega

/-- A query for a view, of 16384 letters. -/
def longQuery : Directory.Request := .view (some (String.ofList (List.replicate 16384 'a')))

/-- A directory does not read a query that its dialer's encoder lets through. -/
theorem not_limits_agree : ∃ bs, (Sending.request longQuery).encode = .ok bs ∧
    ∀ sizes ends, ¬(Sending.request longQuery).Received ⟨bs, sizes, ends⟩ [] := by
  obtain ⟨cs, hcs, hlen⟩ : ∃ cs, cs = List.replicate 16384 'a' ∧ cs.length = 16384 :=
    ⟨_, rfl, List.length_replicate⟩
  have hbytes := length_query_bounds cs
  rw [longQuery, ← hcs]
  apply not_received_of_long
  · rw [MAX_SMALL_DIRECTORY_FRAME]
    omega
  · rw [MAX_DIRECTORY_FRAME]
    omega

end Wires
