import Wires.Framework.JsonSize
import Wires.Proof.Delivery
import Wires.Proof.Frames
import Wires.Proof.Limits

/-!
# Invocations and batches fit the wire

Whatever a valid call's arguments are, the host reads its `invoke`; whatever a
batch's messages say, the peer reads its `deliver`, and the `ack` of their ids
(`all_fit`). What counts is `Json.size`, at most six bytes for each byte of a
text.
-/

namespace Wires

/-! ## Sizes -/

theorem size_serviceName_le (n : ServiceName) : (toJson n).size ≤ 6 * MAX_SERVICE_NAME + 2 := by
  have hvalid := n.valid
  have hsize := size_string_le n.name
  simp only [isServiceName, Bool.and_eq_true, decide_eq_true_eq] at hvalid
  show (toJson n.name).size ≤ _
  have hname : n.name.utf8ByteSize ≤ MAX_SERVICE_NAME := hvalid.2
  omega

/-- The texts of some strings take six bytes for each of theirs, and their quotes. -/
theorem sum_size_le (args : List String) :
    ((args.map toJson).map Json.size).sum ≤ 6 * (args.map byteLen).sum + 2 * args.length := by
  induction args with
  | nil => simp
  | cons a args ih =>
    have ha : (toJson a).size ≤ 6 * byteLen a + 2 := size_string_le a
    simp only [List.map_cons, List.sum_cons, List.length_cons] at ih ⊢
    omega

theorem size_argv_le (a : Argv) : (toJson a).size ≤ 6 * MAX_ARGV_BYTES + 3 * MAX_ARGS + 2 := by
  have hvalid := a.valid
  simp only [isArgv, Bool.and_eq_true, decide_eq_true_eq] at hvalid
  obtain ⟨⟨hargs, hbytes⟩, -⟩ := hvalid
  have hsum := sum_size_le a.args
  show (Json.arr (a.args.map toJson)).size ≤ _
  rw [Json.size, Json.sizeElems_eq_sum, List.length_map]
  omega

theorem length_invocation_le (i : Invocation) : (canonicalBytes i).length < MAX_INVOKE_FRAME := by
  have hservice := size_serviceName_le i.service
  have hargv := size_argv_le i.argv
  have hkeys : (utf8 (Json.quote "service".toList)).length = 9 ∧
      (utf8 (Json.quote "argv".toList)).length = 6 := ⟨by decide, by decide⟩
  rw [length_canonicalBytes, show toJson i = .obj [("service", toJson i.service),
    ("argv", toJson i.argv)] from rfl]
  simp only [Json.size, Json.sizeMembers, hkeys, List.length_cons, List.length_nil]
  simp only [MAX_SERVICE_NAME, MAX_ARGV_BYTES, MAX_ARGS, MAX_INVOKE_FRAME] at *
  omega

theorem size_subject_le (s : Subject) : (toJson s).size ≤ 6 * MAX_SUBJECT + 2 := by
  have hsize := size_string_le s.text
  have hlength : s.text.utf8ByteSize ≤ MAX_SUBJECT := by
    have hvalid := s.valid
    rw [subjectFault] at hvalid
    split_ifs at hvalid with _ hlong
    exact not_lt.mp hlong
  show (toJson s.text).size ≤ _
  omega

theorem size_pushBody_le (b : PushBody) : (toJson b).size ≤ 6 * MAX_PUSH_BODY + 2 := by
  have hsize := size_string_le b.text
  have hlength : b.text.utf8ByteSize ≤ MAX_PUSH_BODY := b.valid
  show (toJson b.text).size ≤ _
  omega

theorem size_pushMessage_le (m : PushMessage) :
    (toJson m).size ≤ 101000 := by
  have hid := size_bytes m.id
  have hsender := size_bytes m.sender
  have hrecipient := size_bytes m.recipient
  have hsubject := size_subject_le m.subject
  have hbody := size_pushBody_le m.body
  have hat := size_int64_le m.atMs
  have hexpires := size_int64_le m.expiresMs
  have hkeys : (utf8 (Json.quote "id".toList)).length = 4 ∧
      (utf8 (Json.quote "from".toList)).length = 6 ∧
      (utf8 (Json.quote "to".toList)).length = 4 ∧
      (utf8 (Json.quote "subject".toList)).length = 9 ∧
      (utf8 (Json.quote "body".toList)).length = 6 ∧
      (utf8 (Json.quote "at_ms".toList)).length = 7 ∧
      (utf8 (Json.quote "expires_ms".toList)).length = 12 := by decide
  rw [show toJson m = .obj [("id", toJson m.id), ("from", toJson m.sender),
    ("to", toJson m.recipient), ("subject", toJson m.subject), ("body", toJson m.body),
    ("at_ms", toJson m.atMs), ("expires_ms", toJson m.expiresMs)] from rfl]
  simp only [Json.size, Json.sizeMembers, hkeys, List.length_cons, List.length_nil]
  simp only [MAX_PUSH_BODY, MAX_SUBJECT] at hbody hsubject
  omega

/-- The text of a tagged object with one more member. -/
theorem size_tagged {α : Type} [Serde α] {a : α} {t k : String} {v : Json}
    (ha : toJson a = .obj [("type", toJson t), (k, v)]) :
    (toJson a).size = (toJson t).size + (utf8 (Json.quote k.toList)).length + v.size + 11 := by
  have htype : (utf8 (Json.quote "type".toList)).length = 6 := by decide
  rw [ha]
  simp only [Json.size, Json.sizeMembers, htype, List.length_cons, List.length_nil]
  omega

/-- The text of a tagged object with one more member, a list of values none longer than `n`. -/
theorem length_batch_le {α : Type} [Serde α] {f : InboxFrame} {k : String} {xs : List α} {n : Nat}
    (hf : toJson f = .obj [("type", toJson f.typeName), (k, .arr (xs.map toJson))])
    (hn : ∀ x ∈ xs, (toJson x).size ≤ n) :
    (canonicalBytes f).length ≤
      6 * f.typeName.utf8ByteSize + 6 * k.utf8ByteSize + xs.length * (n + 1) + 17 := by
  have hname := size_string_le f.typeName
  have hkey := Json.length_utf8_quote k.toList
  have hxs := @Json.size_arr_le (xs.map toJson) n (by simpa using hn)
  rw [length_utf8_toList] at hkey
  rw [List.length_map] at hxs
  rw [length_canonicalBytes, size_tagged hf]
  omega

theorem fits_deliver {ms : List PushMessage} (hms : ms.length ≤ MAX_BATCH) :
    (InboxFrame.deliver ms).check = .ok () ∧
      (canonicalBytes (InboxFrame.deliver ms)).length ≤ MAX_INBOX_FRAME := by
  have hlength := length_batch_le (f := .deliver ms) (k := "messages") rfl
    fun m _ => size_pushMessage_le m
  have hname : (InboxFrame.deliver ms).typeName.utf8ByteSize = 7 := rfl
  have hkey : "messages".utf8ByteSize = 8 := rfl
  have hmany : ms.length * 101001 ≤ MAX_BATCH * 101001 := Nat.mul_le_mul_right _ hms
  have hroom : MAX_BATCH * 101001 + 107 ≤ MAX_INBOX_FRAME := by decide
  exact ⟨ensure_eq_ok.mpr (by omega), by omega⟩

theorem fits_ack {ids : List PushId} (hids : ids.length ≤ MAX_BATCH) :
    (InboxFrame.ack ids).check = .ok () ∧
      (canonicalBytes (InboxFrame.ack ids)).length ≤ MAX_INBOX_FRAME := by
  have hlength := length_batch_le (f := .ack ids) (k := "ids") rfl fun id _ => (size_bytes id).le
  have hname : (InboxFrame.ack ids).typeName.utf8ByteSize = 3 := rfl
  have hkey : "ids".utf8ByteSize = 3 := rfl
  have hmany : ids.length * 35 ≤ MAX_BATCH * 35 := Nat.mul_le_mul_right _ hids
  have hroom : MAX_BATCH * 35 + 53 ≤ MAX_INBOX_FRAME := by decide
  exact ⟨ensure_eq_ok.mpr (by omega), by omega⟩

/-! ## Frames -/

theorem lengthPrefixed_of_le {body : List UInt8} {n : Nat} (h : body.length ≤ n) (hn : n < 2 ^ 32) :
    ∃ bs, lengthPrefixed body = some bs ∧ bs.length ≤ 4 + n := by
  refine ⟨be32 body.length ++ body, if_pos (by omega), ?_⟩
  rw [List.length_append, length_be32]
  omega

theorem encode_invoke (i : Invocation) :
    ∃ bs, (Frame.invoke i).encode = .ok bs ∧ bs.length ≤ 4 + MAX_INVOKE_FRAME := by
  have hbody : ((Frame.invoke i).tag :: (Frame.invoke i).body).length ≤ MAX_INVOKE_FRAME :=
    length_invocation_le i
  obtain ⟨bs, hbs, hlength⟩ := lengthPrefixed_of_le hbody (by decide)
  exact ⟨bs, by rw [Frame.encode, hbs, orError_some], hlength⟩

theorem encode_inbox {f : InboxFrame} (hcheck : f.check = .ok ())
    (hlength : (canonicalBytes f).length ≤ MAX_INBOX_FRAME) :
    ∃ bs, f.encode = .ok bs ∧ bs.length ≤ 4 + MAX_INBOX_FRAME := by
  obtain ⟨bs, hbs, hle⟩ := lengthPrefixed_of_le hlength (by decide)
  refine ⟨bs, ?_, hle⟩
  rw [InboxFrame.encode, hcheck]
  simp [hlength, hbs]

/-- A host takes an encoded session frame off its stream if it is within the cap there. -/
theorem readFrameWithin_encoded {f : Frame} {bs rest : List UInt8} {cap : Nat} {s : Stream}
    (he : f.encode = .ok bs) (hcap : bs.length ≤ 4 + cap) (hs : s.bytes = bs ++ rest) :
    (readFrameWithin s cap).1 = .ok (some f) ∧ (readFrameWithin s cap).2.bytes = rest := by
  obtain ⟨body, hb⟩ : ∃ body, lengthPrefixed body = some bs := ⟨_, orError_eq_ok.mp he⟩
  exact ((readFrameWithin_reads s cap).yields_iff Frame.splits hb hs f).mpr
    ⟨Frame.decode_encode he, hcap⟩

/-- The host reads every valid call's `invoke`, and a peer every batch and its `ack`. -/
theorem all_fit :
    (∀ (service : ServiceName) (args : List String) (argv : Argv), Argv.new args = .ok argv →
      ∃ bs, (Frame.invoke ⟨service, argv⟩).encode = .ok bs ∧ bs.length ≤ 4 + MAX_INVOKE_FRAME ∧
        ∀ (s : Stream) (rest : List UInt8), s.bytes = bs ++ rest →
          Sending.Yields (readFrameWithin s MAX_INVOKE_FRAME) (some (.invoke ⟨service, argv⟩)) rest) ∧
    ∀ ms : List PushMessage, ms.length ≤ MAX_BATCH →
      ∀ f ∈ [InboxFrame.deliver ms, .ack (ms.map (·.id))], ∃ bs, f.encode = .ok bs ∧
        bs.length ≤ 4 + MAX_INBOX_FRAME ∧
        ∀ (s : Stream) (rest : List UInt8), s.bytes = bs ++ rest →
          Sending.Yields (readInboxFrame s) (some f) rest := by
  refine ⟨fun service args argv _ => ?_, fun ms hms f hf => ?_⟩
  · obtain ⟨bs, he, hlength⟩ := encode_invoke ⟨service, argv⟩
    exact ⟨bs, he, hlength, fun s rest hs => readFrameWithin_encoded he hlength hs⟩
  · have hfits : f.check = .ok () ∧ (canonicalBytes f).length ≤ MAX_INBOX_FRAME := by
      rcases List.mem_cons.mp hf with rfl | hf
      · exact fits_deliver hms
      · obtain rfl := List.mem_singleton.mp hf
        exact fits_ack (by rw [List.length_map]; exact hms)
    obtain ⟨bs, he, hlength⟩ := encode_inbox hfits.1 hfits.2
    exact ⟨bs, he, hlength, fun s rest hs => (readInboxFrameWithin_encoded he hs).mpr hlength⟩

/-- A call with one argument, and a batch of one message. -/
theorem all_fit_sample : ∃ argv, Argv.new ["a b"] = .ok argv ∧
    (∃ bs, (Frame.invoke ⟨sampleName, argv⟩).encode = .ok bs ∧ bs.length ≤ 4 + MAX_INVOKE_FRAME ∧
      Sending.Yields (readFrameWithin (⟨bs, [], .eof⟩) MAX_INVOKE_FRAME)
        (some (.invoke ⟨sampleName, argv⟩)) []) ∧
    ∃ bs, (InboxFrame.ack [sampleMessage.id]).encode = .ok bs ∧ bs.length ≤ 4 + MAX_INBOX_FRAME := by
  have hargv : Argv.new ["a b"] = .ok ⟨["a b"], by decide⟩ := Argv.new_args ⟨["a b"], by decide⟩
  obtain ⟨bs, he, hlength, hread⟩ := all_fit.1 sampleName _ _ hargv
  obtain ⟨cs, hack, hshort, -⟩ := all_fit.2 [sampleMessage] (by decide) (.ack [sampleMessage.id]) (by simp)
  exact ⟨_, hargv, ⟨bs, he, hlength, hread _ _ (by simp)⟩, cs, hack, hshort⟩

end Wires
