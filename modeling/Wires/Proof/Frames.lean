import Wires.Impl.Frame
import Wires.Proof.Messages

/-!
# The session frame codec

`Frame.decode` inverts `Frame.encode`, at the start of any buffer
(`Frame.decode_append`), and `Frame.splits` says it reads frames off a growing
stream. Together they give `Frame.codec_exact`: the encodings of any list of
frames, cut into any chunks, are read back as those frames.
-/

namespace Wires

/-! ## The JSON bodies -/

theorem reads_argv (a : Argv) : Reads a := fun σ hσ => by
  show (ofJson ((toJson a.args).arrange σ) : Option (List String)).bind _ = _
  rw [reads_list (fun s _ => reads_string s) σ hσ, Option.bind_some, Argv.new_args]
  rfl

theorem reads_invocation (i : Invocation) : Reads i := reads_of_obj rfl fun _ _ hσ hp =>
  openFields_bind hp (by simp) (by simp)
    (field_bind hσ (reads_serviceName _) rfl (field_bind hσ (reads_argv _) rfl rfl))

theorem reads_hello (h : Hello) : Reads h := reads_of_obj rfl fun _ _ hσ hp =>
  fields_bind hp (by simp) (by simp)
    (field_bind hσ (reads_uint64 _) rfl (field_bind hσ (reads_string _) rfl rfl))

theorem reads_helloAck (a : HelloAck) : Reads a := by
  obtain ⟨version, head, entry⟩ := a
  refine reads_of_obj rfl fun σ ns hσ hp => ?_
  have hnodup : ((("state_version", toJson version) ::
      (optMember "head" head ++ optMember "entry" entry)).map Prod.fst).Nodup := by
    cases head <;> cases entry <;> simp [optMember]
  have hnames : ∀ k ∈ (("state_version", toJson version) ::
      (optMember "head" head ++ optMember "entry" entry)).map Prod.fst,
      k ∈ ["state_version", "head", "entry"] := by
    cases head <;> cases entry <;> simp [optMember]
  exact fields_bind hp hnodup hnames
    (field_bind hσ (reads_uint64 _) rfl
      (optField_bind hσ (o := head) (fun h _ => ⟨reads_signedPolicyHead h, by simp [toJson]⟩)
        (by cases head <;> cases entry <;> rfl)
        (optField_bind hσ (o := entry) (fun e _ => ⟨reads_signedEntry e, by simp [toJson]⟩)
          (by cases head <;> cases entry <;> rfl) rfl)))

theorem reads_fresh (f : Fresh) : Reads f := reads_of_obj rfl fun _ _ hσ hp =>
  fields_bind hp (by simp) (by simp)
    (field_bind hσ (reads_uint8 _) rfl
      (field_bind hσ (reads_bytes _) rfl
        (field_bind hσ (reads_bytes _) rfl
          (field_bind hσ (reads_uint64 _) rfl
            (field_bind hσ (reads_bytes _) rfl
              (field_bind hσ (reads_int64 _) rfl
                (field_bind hσ (reads_int64 _) rfl
                  (field_bind hσ (reads_algorithmId _) rfl
                    (field_bind hσ (reads_bytes _) rfl rfl)))))))))

theorem reads_hostProof (p : HostProof) : Reads p := reads_of_obj rfl fun _ _ hσ hp =>
  fields_bind hp (by simp) (by simp)
    (field_bind hσ (reads_signedPolicyHead _) rfl
      (field_bind hσ (reads_list fun f _ => reads_fresh f) rfl rfl))

/-! ## One frame -/

namespace Frame

/-- A frame is read back from its tag and body. -/
theorem ofBody_body (f : Frame) : ofBody f.tag f.body = .ok f := by
  cases f with
  | stdin chunk => rfl
  | stdout chunk => rfl
  | stderr chunk => rfl
  | exit code =>
    have hcode : UInt32.ofNat (ofBe32 (UInt8.ofNat (code.toUInt32.toNat / 2 ^ 24))
        (UInt8.ofNat (code.toUInt32.toNat / 2 ^ 16)) (UInt8.ofNat (code.toUInt32.toNat / 2 ^ 8))
        (UInt8.ofNat code.toUInt32.toNat)) = code.toUInt32 := by
      rw [ofBe32_ofNat code.toUInt32.toNat_lt, UInt32.ofNat_toNat]
    show Except.ok (exit (UInt32.ofNat (ofBe32 _ _ _ _)).toInt32) = _
    rw [hcode, Int32.toInt32_toUInt32]
  | denied reason =>
    show (orError (utf8Decode (utf8 reason.toList)) _ >>= fun r => pure (denied (String.ofList r))) = _
    rw [utf8Decode_utf8, orError_some, ok_bind, String.ofList_toList]
    rfl
  | invoke i =>
    show (orError (fromSlice (canonicalBytes i)) _ >>= _) = _
    rw [(reads_invocation i).bytes]
    rfl
  | hello h =>
    show (orError (fromSlice (canonicalBytes h)) _ >>= _) = _
    rw [(reads_hello h).bytes]
    rfl
  | helloAck a =>
    show (orError (fromSlice (canonicalBytes a)) _ >>= _) = _
    rw [(reads_helloAck a).bytes]
    rfl
  | opens => rfl
  | proof p =>
    show (orError (fromSlice (canonicalBytes p)) _ >>= _) = _
    rw [(reads_hostProof p).bytes]
    rfl

theorem encode_eq_ok {f : Frame} {bs : List UInt8} :
    f.encode = .ok bs ↔ lengthPrefixed (f.tag :: f.body) = some bs := orError_eq_ok

/-- A frame is read back from its encoding, whatever comes after. -/
theorem decode_append {f : Frame} {bs : List UInt8} (h : f.encode = .ok bs) (rest : List UInt8) :
    decode (bs ++ rest) = .ok (some (f, bs.length)) := by
  rw [decode, splitFrame_append (encode_eq_ok.mp h) rest]
  show (ofBody f.tag f.body >>= _) = _
  rw [ofBody_body]
  rfl

theorem decode_encode {f : Frame} {bs : List UInt8} (h : f.encode = .ok bs) :
    decode bs = .ok (some (f, bs.length)) := by
  have := decode_append h []
  rwa [List.append_nil] at this

/-- Of a part of a frame, nothing is read. -/
theorem decode_of_prefix {f : Frame} {bs p : List UInt8} (h : f.encode = .ok bs) (hp : p <+: bs)
    (hne : p ≠ bs) : decode p = .ok none := by
  rw [decode, splitFrame_of_prefix (encode_eq_ok.mp h) hp hne]

/-! ## A stream of frames -/

/-- A frame is read from the first whole one of the buffer. -/
theorem decode_whole {buf : List UInt8} {f : Frame} {n : Nat}
    (h : decode buf = .ok (some (f, n))) : ∃ body, splitFrame buf = some (body, n) := by
  rw [decode] at h
  split at h
  · cases h
  · cases h
  · rename_i tag body k hs
    obtain ⟨f', -, hf⟩ := bind_eq_ok.mp h
    cases hf
    exact ⟨_, hs⟩

theorem decode_consumes {buf : List UInt8} {f : Frame} {n : Nat}
    (h : decode buf = .ok (some (f, n))) : 0 < n ∧ n ≤ buf.length := by
  obtain ⟨body, hs⟩ := decode_whole h
  have := splitFrame_eq_some hs
  omega

theorem decode_waits {buf : List UInt8} (h : decode buf = .ok none) : splitFrame buf = none := by
  rw [decode] at h
  split at h
  · assumption
  · cases h
  · obtain ⟨f, -, hf⟩ := bind_eq_ok.mp h
    cases hf

/-- What is read of a buffer does not change when more comes. -/
theorem decode_append_of_split {buf : List UInt8} {r : List UInt8 × Nat}
    (h : splitFrame buf = some r) (rest : List UInt8) : decode (buf ++ rest) = decode buf := by
  rw [decode, decode, splitFrame_append_of_some h, h]

/-- `decode` reads frames off a growing stream. -/
theorem splits : SplitsFrames decode where
  whole := decode_whole
  waits := decode_waits
  nil := rfl
  consumes := decode_consumes
  frame {buf r} h rest := by
    cases hs : splitFrame buf with
    | none => rw [decode, hs] at h; cases h
    | some s => rw [decode_append_of_split hs, h]
  error {buf e} h rest := by
    cases hs : splitFrame buf with
    | none => rw [decode, hs] at h; cases h
    | some s => rw [decode_append_of_split hs, h]

/-- The codec is exact and streamable: any list of frames that encode is read back, in order and
with nothing left, from its encodings cut into any chunks; of a part of one frame's encoding
nothing is read; and what is read of any buffer took some of its bytes, and is what its own
encoding is read as. -/
theorem codec_exact :
    (∀ (fs : List Frame) (es chunks : List (List UInt8)), fs.mapM encode = .ok es →
      chunks.flatten = es.flatten → chunks.foldl (feed decode) ([], .ok []) = (fs, .ok [])) ∧
    (∀ (f : Frame) (bs p : List UInt8), f.encode = .ok bs → p <+: bs → p ≠ bs →
      decode p = .ok none) ∧
    ∀ (buf : List UInt8) (f : Frame) (n : Nat), decode buf = .ok (some (f, n)) →
      0 < n ∧ n ≤ buf.length ∧
        ∀ bs, f.encode = .ok bs → decode bs = .ok (some (f, bs.length)) := by
  refine ⟨?_, fun f bs p => decode_of_prefix, ?_⟩
  · intro fs es chunks he hc
    rw [feed_chunks splits.toSplits, hc]
    exact drain_encodings splits.toSplits decode_encode he
  · intro buf f n h
    obtain ⟨hpos, hle⟩ := decode_consumes h
    exact ⟨hpos, hle, fun bs => decode_encode⟩

/-- An exit code and a chunk, whose bytes arrive cut inside the first frame's prefix and inside
the second frame's body. -/
theorem codec_exact_sample :
    [[0, 0], [0, 5, 4, 0, 0, 0, 7, 0, 0, 0, 3, 1], [104, 105]].foldl (feed decode) ([], .ok []) =
      ([.exit 7, .stdin [104, 105]], .ok []) :=
  codec_exact.1 [.exit 7, .stdin [104, 105]]
    [[0, 0, 0, 5, 4, 0, 0, 0, 7], [0, 0, 0, 3, 1, 104, 105]] _ rfl rfl

end Frame

end Wires
