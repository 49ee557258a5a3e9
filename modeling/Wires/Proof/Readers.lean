import Wires.Impl.Reader
import Wires.Proof.Frames

/-!
# The stream readers

What each of the three readers makes of a stream depends on its bytes and how
they end, not on how they are cut (`ReadsFirst`): it takes the codec's first
frame, or fails. `AgreesWithCodec` is what a reader owes its codec, and
`readers_agree` says exactly when it does: unless the stream ends, cleanly,
inside a length prefix, which all three take for the end of the frames.
-/

namespace Wires

/-! ## The two reads of a frame -/

namespace Stream

variable {s : Stream} {len : Nat}

theorem readExact_of_short (h : s.bytes.length < 4) :
    ∃ s' : Stream, s.readExact 4 = (.error s.ends.short, s') := by
  obtain ⟨sizes, hr⟩ := s.readExact_eq 4
  rw [if_neg (by omega)] at hr
  exact ⟨_, hr⟩

theorem readExact_of_prefixLen (h : prefixLen s.bytes = some len) :
    ∃ (lenBuf : List UInt8) (s' : Stream), s.readExact 4 = (.ok lenBuf, s') ∧
      lenBuf = be32 len ∧ s'.bytes = s.bytes.drop 4 := by
  obtain ⟨sizes, hr⟩ := s.readExact_eq 4
  have htake : s.bytes.take 4 = be32 len := by
    conv_lhs => rw [eq_be32_append h]
    rfl
  rw [if_pos (four_le_of_prefixLen h), htake] at hr
  exact ⟨_, _, hr, rfl, rfl⟩

theorem readToEnd_of_short {n : Nat} (h : s.bytes.length < n) :
    ∃ (r : Except ReadError (List UInt8)) (s' : Stream), s.readToEnd n = (r, s') ∧
      ∀ body, r = .ok body → body.length < n := by
  obtain ⟨sizes, hr⟩ := s.readToEnd_eq n
  refine ⟨_, _, hr, fun body hb => ?_⟩
  rw [filled, if_neg (by omega)] at hb
  split at hb
  · cases hb
    exact h
  · cases hb

/-- The two reads of a frame that is all there: its prefix, then its body. -/
theorem reads_of_le (h : prefixLen s.bytes = some len) (hle : 4 + len ≤ s.bytes.length) :
    ∃ (lenBuf : List UInt8) (r : Stream) (body : List UInt8) (r' : Stream),
      s.readExact 4 = (.ok lenBuf, r) ∧ lenBuf = be32 len ∧ r.readToEnd len = (.ok body, r') ∧
      lenBuf ++ body = s.bytes.take (4 + len) ∧ (lenBuf ++ body).length = 4 + len ∧
      r'.bytes = s.bytes.drop (4 + len) := by
  obtain ⟨lenBuf, r, hr, hlenBuf, hbytes⟩ := readExact_of_prefixLen h
  obtain ⟨sizes, hb⟩ := r.readToEnd_eq len
  have hlen : len ≤ r.bytes.length := by
    rw [hbytes, List.length_drop]
    omega
  have hfull : lenBuf ++ (s.bytes.drop 4).take len = s.bytes.take (4 + len) := by
    conv_rhs => rw [eq_be32_append h, show 4 + len = (be32 len).length + len from rfl,
      List.take_length_add_append]
    rw [hlenBuf]
  rw [filled, if_pos hlen, hbytes] at hb
  refine ⟨lenBuf, r, _, _, hr, hlenBuf, hb, hfull, ?_, List.drop_drop⟩
  rw [hfull, List.length_take]
  omega

/-- The two reads of a frame that is cut off: its prefix, then not enough. -/
theorem reads_of_short (h : prefixLen s.bytes = some len) (hshort : s.bytes.length < 4 + len) :
    ∃ (lenBuf : List UInt8) (r : Stream) (out : Except ReadError (List UInt8)) (r' : Stream),
      s.readExact 4 = (.ok lenBuf, r) ∧ lenBuf = be32 len ∧ r.readToEnd len = (out, r') ∧
      ∀ body, out = .ok body → (lenBuf ++ body).length ≠ 4 + len ∧
        splitFrame (lenBuf ++ body) = none := by
  have hfour := four_le_of_prefixLen h
  obtain ⟨lenBuf, r, hr, hlenBuf, hbytes⟩ := readExact_of_prefixLen h
  obtain ⟨out, r', hout, hbody⟩ := readToEnd_of_short (s := r) (n := len) (by
    rw [hbytes, List.length_drop]
    omega)
  refine ⟨lenBuf, r, out, r', hr, hlenBuf, hout, fun body hb => ?_⟩
  have hlen := hbody body hb
  have hlt : (lenBuf ++ body).length < 4 + len := by
    rw [List.length_append, hlenBuf, length_be32]
    omega
  refine ⟨by omega, splitFrame_eq_none.mpr fun n hn => ?_⟩
  rw [hlenBuf, prefixLen_be32 (prefixLen_lt h)] at hn
  cases hn
  exact hlt

end Stream

theorem fromBeBytes_of_eq {s : Stream} {n : Nat} (h : prefixLen s.bytes = some n)
    {lenBuf : List UInt8} (hl : lenBuf = be32 n) : fromBeBytes lenBuf = n := by
  have := prefixLen_be32 (prefixLen_lt h) []
  rw [List.append_nil] at this
  rw [fromBeBytes, hl, this]
  rfl

/-! ## What a reader makes of a stream -/

variable {F : Type}

/-- What a reader of one frame, of at most `cap` bytes, makes of a stream. -/
structure ReadsFirst (decode : Decoder F Error) (cap : Nat) (s : Stream)
    (out : Except Anyhow (Option F) × Stream) : Prop where
  ended : s.bytes.length < 4 → s.ends = .eof → out.1 = .ok none
  failed : s.bytes.length < 4 → s.ends ≠ .eof → ∃ e, out.1 = .error e
  refused : ∀ len, prefixLen s.bytes = some len → cap < len →
    (∃ e, out.1 = .error e) ∧ out.2.bytes = s.bytes.drop 4
  cutOff : ∀ len, prefixLen s.bytes = some len → s.bytes.length < 4 + len → ∃ e, out.1 = .error e
  frame : ∀ len f n, prefixLen s.bytes = some len → len ≤ cap → 4 + len ≤ s.bytes.length →
    decode s.bytes = .ok (some (f, n)) → out.1 = .ok (some f) ∧ out.2.bytes = s.bytes.drop n
  malformed : ∀ len e, prefixLen s.bytes = some len → 4 + len ≤ s.bytes.length →
    decode s.bytes = .error e → ∃ e', out.1 = .error e'

/-- The bytes a frame taken off takes. -/
theorem length_of_frame {decode : Decoder F Error} (hd : SplitsFrames decode) {buf : List UInt8}
    {f : F} {n len : Nat} (hf : decode buf = .ok (some (f, n))) (h : prefixLen buf = some len) :
    n = 4 + len := by
  obtain ⟨len', hlen', hn, -⟩ := hd.announced hf
  rw [h] at hlen'
  cases hlen'
  exact hn

/-- A frame that is read stands first on the stream, and what is behind it is left. -/
theorem ReadsFirst.of_frame {decode : Decoder F Error} {cap : Nat} {s : Stream}
    {out : Except Anyhow (Option F) × Stream} (h : ReadsFirst decode cap s out)
    (hd : SplitsFrames decode) {f : F} (hf : out.1 = .ok (some f)) :
    ∃ n, decode s.bytes = .ok (some (f, n)) ∧ out.2.bytes = s.bytes.drop n := by
  have hno : ∀ e, out.1 ≠ .error e := fun e he => by rw [hf] at he; cases he
  cases hlen : prefixLen s.bytes with
  | none =>
    have hshort := prefixLen_eq_none.mp hlen
    by_cases hends : s.ends = .eof
    · rw [h.ended hshort hends] at hf
      cases hf
    · obtain ⟨e, he⟩ := h.failed hshort hends
      exact absurd he (hno e)
  | some len =>
    have hcap : len ≤ cap := by
      by_contra hlt
      obtain ⟨⟨e, he⟩, -⟩ := h.refused len hlen (not_le.mp hlt)
      exact hno e he
    have hle : 4 + len ≤ s.bytes.length := by
      by_contra hlt
      obtain ⟨e, he⟩ := h.cutOff len hlen (not_le.mp hlt)
      exact hno e he
    cases hdec : decode s.bytes with
    | error e =>
      obtain ⟨e', he⟩ := h.malformed len e hlen hle hdec
      exact absurd he (hno e')
    | ok o =>
      cases o with
      | none =>
        have hwait := splitFrame_eq_none.mp (hd.waits hdec) len hlen
        omega
      | some r =>
        obtain ⟨f', n⟩ := r
        obtain ⟨hout, hrest⟩ := h.frame len f' n hlen hcap hle hdec
        rw [hf] at hout
        cases hout
        exact ⟨n, rfl, hrest⟩

theorem readFrameWithin_reads (s : Stream) (cap : Nat) :
    ReadsFirst Frame.decode cap s (readFrameWithin s cap) where
  ended h he := by
    obtain ⟨s', hr⟩ := Stream.readExact_of_short h
    rw [readFrameWithin, hr, he]
    rfl
  failed h he := by
    obtain ⟨s', hr⟩ := Stream.readExact_of_short h
    rw [readFrameWithin, hr]
    cases hs : s.ends with
    | eof => exact absurd hs he
    | failed why => exact ⟨_, rfl⟩
  refused len hlen hcap := by
    obtain ⟨lenBuf, r, hr, hbuf, hbytes⟩ := Stream.readExact_of_prefixLen hlen
    simp only [readFrameWithin, hr, fromBeBytes_of_eq hlen hbuf, gt_iff_lt, if_pos hcap]
    exact ⟨⟨_, rfl⟩, hbytes⟩
  cutOff len hlen hshort := by
    obtain ⟨lenBuf, r, out, r', hr, hbuf, hb, hbody⟩ := Stream.reads_of_short hlen hshort
    simp only [readFrameWithin, hr, fromBeBytes_of_eq hlen hbuf, gt_iff_lt]
    split_ifs with hcap
    · exact ⟨_, rfl⟩
    · rw [hb]
      cases out with
      | error e => exact ⟨_, rfl⟩
      | ok body => simp only [if_pos (hbody body rfl).1]; exact ⟨_, rfl⟩
  frame len f n hlen hcap hle hd := by
    obtain ⟨lenBuf, r, body, r', hr, hbuf, hb, hfull, hlength, hbytes⟩ := Stream.reads_of_le hlen hle
    rw [length_of_frame Frame.splits hd hlen]
    rw [← Frame.splits.decode_take hlen hle, ← hfull] at hd
    simp only [readFrameWithin, hr, fromBeBytes_of_eq hlen hbuf, gt_iff_lt,
      if_neg (not_lt.mpr hcap), hb, hlength, ne_eq, not_true_eq_false, if_false, hd, true_and]
    exact hbytes
  malformed len e hlen hle hd := by
    obtain ⟨lenBuf, r, body, r', hr, hbuf, hb, hfull, hlength, hbytes⟩ := Stream.reads_of_le hlen hle
    rw [← Frame.splits.decode_take hlen hle, ← hfull] at hd
    simp only [readFrameWithin, hr, fromBeBytes_of_eq hlen hbuf, gt_iff_lt]
    split_ifs with hcap
    · exact ⟨_, rfl⟩
    · simp only [hb, hlength, ne_eq, not_true_eq_false, if_false, hd]
      exact ⟨_, rfl⟩

/-! ## The directory's and the inbox's codecs -/

section

variable {α : Type} [Serde α] {max : Nat}

theorem decodeFrame_whole {buf : List UInt8} {a : α} {n : Nat}
    (h : decodeFrame max buf = .ok (some (a, n))) : ∃ body, splitFrame buf = some (body, n) := by
  rw [decodeFrame] at h
  split at h
  · cases h
  · split at h
    · cases h
    · rename_i body k hs
      obtain ⟨b, -, hb⟩ := bind_eq_ok.mp h
      cases hb
      exact ⟨body, hs⟩

theorem decodeFrame_waits {buf : List UInt8}
    (h : (decodeFrame max buf : Result (Option (α × Nat))) = .ok none) : splitFrame buf = none := by
  rw [decodeFrame] at h
  split at h
  · cases h
  · split at h
    · assumption
    · obtain ⟨b, -, hb⟩ := bind_eq_ok.mp h
      cases hb

/-- Once its prefix is there, and its body or a length over the limit, a frame is decoded. -/
theorem decodeFrame_append {buf : List UInt8} {len : Nat} (hlen : prefixLen buf = some len)
    (h : max < len ∨ splitFrame buf ≠ none) (rest : List UInt8) :
    (decodeFrame max (buf ++ rest) : Result (Option (α × Nat))) = decodeFrame max buf := by
  rw [decodeFrame, decodeFrame, prefixLen_append hlen, hlen]
  by_cases hmax : max < len
  · simp [hmax]
  · have hne := h.resolve_left hmax
    cases hs : splitFrame buf with
    | none => exact absurd hs hne
    | some r => rw [splitFrame_append_of_some hs]

theorem prefixLen_of_splitFrame {buf : List UInt8} {r : List UInt8 × Nat}
    (h : splitFrame buf = some r) : ∃ len, prefixLen buf = some len := by
  obtain ⟨len, hlen, -⟩ := Option.bind_eq_some_iff.mp h
  exact ⟨len, hlen⟩

/-- Every directory decoder takes frames off a growing stream. -/
theorem decodeFrame_splits : SplitsFrames (decodeFrame max : Decoder α Error) where
  nil := rfl
  consumes {buf f n} h := by
    obtain ⟨body, hs⟩ := decodeFrame_whole h
    have := splitFrame_eq_some hs
    omega
  frame {buf r} h rest := by
    obtain ⟨body, hs⟩ := decodeFrame_whole h
    obtain ⟨len, hlen⟩ := prefixLen_of_splitFrame hs
    rw [decodeFrame_append hlen (.inr (by simp [hs])), h]
  error {buf e} h rest := by
    cases hlen : prefixLen buf with
    | none =>
      have hs : splitFrame buf = none := by rw [splitFrame, hlen]; rfl
      rw [decodeFrame, hlen, hs] at h
      cases h
    | some len =>
      by_cases hmax : max < len
      · rw [decodeFrame_append hlen (.inl hmax), h]
      · have hs : splitFrame buf ≠ none := fun hs => by
          rw [decodeFrame, hlen, hs] at h
          simp [hmax] at h
        rw [decodeFrame_append hlen (.inr hs), h]
  whole := decodeFrame_whole
  waits := decodeFrame_waits

end

namespace InboxFrame

theorem length_eq_ok {buf : List UInt8} {o : Option Nat} : length buf = .ok o ↔
    prefixLen buf = o ∧ ∀ len, o = some len → len ≤ MAX_INBOX_FRAME := by
  rw [length]
  cases prefixLen buf with
  | none =>
    simp only [Except.ok.injEq, iff_self_and]
    rintro rfl
    simp
  | some len =>
    by_cases h : len > MAX_INBOX_FRAME
    · simp only [if_pos h, reduceCtorEq, false_iff, not_and, not_forall]
      rintro rfl
      exact ⟨len, rfl, by omega⟩
    · simp only [if_neg h, Except.ok.injEq]
      refine ⟨fun he => ⟨he, fun len' hl => ?_⟩, fun he => he.1⟩
      rw [hl] at he
      cases he
      omega

theorem decode_whole {buf : List UInt8} {f : InboxFrame} {n : Nat}
    (h : decode buf = .ok (some (f, n))) : ∃ body, splitFrame buf = some (body, n) := by
  obtain ⟨o, -, h⟩ := bind_eq_ok.mp h
  split at h
  · cases h
  · rename_i body k hs
    obtain ⟨f', -, h⟩ := bind_eq_ok.mp h
    obtain ⟨_, -, h⟩ := bind_eq_ok.mp h
    cases h
    exact ⟨body, hs⟩

theorem decode_waits {buf : List UInt8} (h : decode buf = .ok none) : splitFrame buf = none := by
  obtain ⟨o, -, h⟩ := bind_eq_ok.mp h
  split at h
  · assumption
  · obtain ⟨f', -, h⟩ := bind_eq_ok.mp h
    obtain ⟨_, -, h⟩ := bind_eq_ok.mp h
    cases h

/-- Once its prefix is there, and its body or a length over the limit, a frame is decoded. -/
theorem decode_append {buf : List UInt8} {len : Nat} (hlen : prefixLen buf = some len)
    (h : MAX_INBOX_FRAME < len ∨ splitFrame buf ≠ none) (rest : List UInt8) :
    decode (buf ++ rest) = decode buf := by
  rw [decode, decode, length, length, prefixLen_append hlen, hlen]
  by_cases hmax : MAX_INBOX_FRAME < len
  · simp only [gt_iff_lt, if_pos hmax]
    rfl
  · have hne := h.resolve_left hmax
    cases hs : splitFrame buf with
    | none => exact absurd hs hne
    | some r => rw [splitFrame_append_of_some hs]

theorem splits : SplitsFrames decode where
  nil := rfl
  consumes {buf f n} h := by
    obtain ⟨body, hs⟩ := decode_whole h
    have := splitFrame_eq_some hs
    omega
  frame {buf r} h rest := by
    obtain ⟨body, hs⟩ := decode_whole h
    obtain ⟨len, hlen⟩ := prefixLen_of_splitFrame hs
    rw [decode_append hlen (.inr (by simp [hs])), h]
  error {buf e} h rest := by
    cases hlen : prefixLen buf with
    | none =>
      have hs : splitFrame buf = none := by rw [splitFrame, hlen]; rfl
      rw [decode, length, hlen, hs] at h
      cases h
    | some len =>
      by_cases hmax : MAX_INBOX_FRAME < len
      · rw [decode_append hlen (.inl hmax), h]
      · have hs : splitFrame buf ≠ none := fun hs => by
          rw [decode, length, hlen, hs] at h
          simp only [gt_iff_lt, if_neg hmax] at h
          cases h
        rw [decode_append hlen (.inr hs), h]
  whole := decode_whole
  waits := decode_waits

end InboxFrame

/-! ## The directory's and the inbox's readers -/

theorem readCapped_reads {decode : Decoder F Error} (hd : SplitsFrames decode) (s : Stream)
    (cap : Nat) : ReadsFirst decode cap s (Directory.readCapped s cap decode) where
  ended h he := by
    obtain ⟨s', hr⟩ := Stream.readExact_of_short h
    rw [Directory.readCapped, Directory.readLen, hr, he]
    rfl
  failed h he := by
    obtain ⟨s', hr⟩ := Stream.readExact_of_short h
    rw [Directory.readCapped, Directory.readLen, hr]
    cases hs : s.ends with
    | eof => exact absurd hs he
    | failed why => exact ⟨_, rfl⟩
  refused len hlen hcap := by
    obtain ⟨lenBuf, r, hr, hbuf, hbytes⟩ := Stream.readExact_of_prefixLen hlen
    simp only [Directory.readCapped, Directory.readLen, hr, fromBeBytes_of_eq hlen hbuf,
      gt_iff_lt, if_pos hcap]
    exact ⟨⟨_, rfl⟩, hbytes⟩
  cutOff len hlen hshort := by
    obtain ⟨lenBuf, r, out, r', hr, hbuf, hb, hbody⟩ := Stream.reads_of_short hlen hshort
    have hrest : 4 + len - lenBuf.length = len := by
      rw [hbuf, length_be32]
      omega
    simp only [Directory.readCapped, Directory.readLen, hr, fromBeBytes_of_eq hlen hbuf,
      gt_iff_lt]
    split_ifs with hcap
    · exact ⟨_, rfl⟩
    · rw [Directory.readRest, hrest, hb]
      cases out with
      | error e => exact ⟨_, rfl⟩
      | ok body => simp only [if_pos (hbody body rfl).1]; exact ⟨_, rfl⟩
  frame len f n hlen hcap hle h := by
    obtain ⟨lenBuf, r, body, r', hr, hbuf, hb, hfull, hlength, hbytes⟩ := Stream.reads_of_le hlen hle
    have hrest : 4 + len - lenBuf.length = len := by
      rw [hbuf, length_be32]
      omega
    rw [length_of_frame hd h hlen]
    rw [← hd.decode_take hlen hle, ← hfull] at h
    simp only [Directory.readCapped, Directory.readLen, hr, fromBeBytes_of_eq hlen hbuf,
      gt_iff_lt, if_neg (not_lt.mpr hcap), Directory.readRest, hrest, hb, hlength, ne_eq,
      not_true_eq_false, if_false, h, true_and]
    exact hbytes
  malformed len e hlen hle h := by
    obtain ⟨lenBuf, r, body, r', hr, hbuf, hb, hfull, hlength, hbytes⟩ := Stream.reads_of_le hlen hle
    have hrest : 4 + len - lenBuf.length = len := by
      rw [hbuf, length_be32]
      omega
    rw [← hd.decode_take hlen hle, ← hfull] at h
    simp only [Directory.readCapped, Directory.readLen, hr, fromBeBytes_of_eq hlen hbuf,
      gt_iff_lt]
    split_ifs with hcap
    · exact ⟨_, rfl⟩
    · simp only [Directory.readRest, hrest, hb, hlength, ne_eq, not_true_eq_false, if_false, h]
      exact ⟨_, rfl⟩

/-- Of a prefix over the inbox's own limit, nothing is decoded. -/
theorem InboxFrame.le_of_decode {buf : List UInt8} {len : Nat} (h : prefixLen buf = some len)
    {o : Option (InboxFrame × Nat)} (hd : decode buf = .ok o) : len ≤ MAX_INBOX_FRAME := by
  obtain ⟨l, hl, -⟩ := bind_eq_ok.mp hd
  obtain ⟨hp, hle⟩ := length_eq_ok.mp hl
  exact hle len (hp ▸ h)

theorem InboxFrame.length_of_eq {s : Stream} {n : Nat} (h : prefixLen s.bytes = some n)
    {lenBuf : List UInt8} (hl : lenBuf = be32 n) :
    length lenBuf =
      if n > MAX_INBOX_FRAME then .error (.invalidPush "the frame is larger than 4 MiB")
      else .ok (some n) := by
  have := prefixLen_be32 (prefixLen_lt h) []
  rw [List.append_nil] at this
  rw [length, hl, this]

theorem readInboxFrameWithin_reads (s : Stream) (cap : Nat) :
    ReadsFirst InboxFrame.decode cap s (readInboxFrameWithin s cap) where
  ended h he := by
    obtain ⟨s', hr⟩ := Stream.readExact_of_short h
    rw [readInboxFrameWithin, hr, he]
    rfl
  failed h he := by
    obtain ⟨s', hr⟩ := Stream.readExact_of_short h
    rw [readInboxFrameWithin, hr]
    cases hs : s.ends with
    | eof => exact absurd hs he
    | failed why => exact ⟨_, rfl⟩
  refused len hlen hcap := by
    obtain ⟨lenBuf, r, hr, hbuf, hbytes⟩ := Stream.readExact_of_prefixLen hlen
    simp only [readInboxFrameWithin, hr, InboxFrame.length_of_eq hlen hbuf]
    by_cases hmax : len > MAX_INBOX_FRAME
    · simp only [if_pos hmax]
      exact ⟨⟨_, rfl⟩, hbytes⟩
    · simp only [if_neg hmax, Option.getD_some, gt_iff_lt, if_pos hcap]
      exact ⟨⟨_, rfl⟩, hbytes⟩
  cutOff len hlen hshort := by
    obtain ⟨lenBuf, r, out, r', hr, hbuf, hb, hbody⟩ := Stream.reads_of_short hlen hshort
    simp only [readInboxFrameWithin, hr, InboxFrame.length_of_eq hlen hbuf]
    by_cases hmax : len > MAX_INBOX_FRAME
    · simp only [if_pos hmax]
      exact ⟨_, rfl⟩
    simp only [if_neg hmax, Option.getD_some, gt_iff_lt]
    split_ifs with hcap
    · exact ⟨_, rfl⟩
    · rw [hb]
      cases out with
      | error e => exact ⟨_, rfl⟩
      | ok body =>
        dsimp only
        cases hd : InboxFrame.decode (lenBuf ++ body) with
        | error e => exact ⟨_, rfl⟩
        | ok o =>
          cases o with
          | none => exact ⟨_, rfl⟩
          | some p =>
            obtain ⟨body', hs⟩ := InboxFrame.decode_whole hd
            rw [(hbody body rfl).2] at hs
            cases hs
  frame len f n hlen hcap hle hd := by
    obtain ⟨lenBuf, r, body, r', hr, hbuf, hb, hfull, hlength, hbytes⟩ := Stream.reads_of_le hlen hle
    have hmax := InboxFrame.le_of_decode hlen hd
    rw [length_of_frame InboxFrame.splits hd hlen]
    rw [← InboxFrame.splits.decode_take hlen hle, ← hfull] at hd
    simp only [readInboxFrameWithin, hr, InboxFrame.length_of_eq hlen hbuf, gt_iff_lt,
      if_neg (not_lt.mpr hmax), Option.getD_some, if_neg (not_lt.mpr hcap), hb, hd, true_and]
    exact hbytes
  malformed len e hlen hle hd := by
    obtain ⟨lenBuf, r, body, r', hr, hbuf, hb, hfull, hlength, hbytes⟩ := Stream.reads_of_le hlen hle
    rw [← InboxFrame.splits.decode_take hlen hle, ← hfull] at hd
    simp only [readInboxFrameWithin, hr, InboxFrame.length_of_eq hlen hbuf]
    by_cases hmax : len > MAX_INBOX_FRAME
    · simp only [if_pos hmax]
      exact ⟨_, rfl⟩
    simp only [if_neg hmax, Option.getD_some, gt_iff_lt]
    split_ifs with hcap
    · exact ⟨_, rfl⟩
    · simp only [hb, hd]
      exact ⟨_, rfl⟩

/-! ## Agreement with the codec -/

/-- A reader of frames of at most `cap` bytes agrees with its codec on a stream: it returns
exactly the codec's first frame, and takes exactly its bytes; it refuses a longer one from the
prefix alone; it says there is no frame only where the stream ended; and it fails on a stream that
ends inside a prefix or a body. -/
structure AgreesWithCodec (decode : Decoder F Error) (cap : Nat) (s : Stream)
    (out : Except Anyhow (Option F) × Stream) : Prop where
  frame : ∀ f, out.1 = .ok (some f) ↔ ∃ n, decode s.bytes = .ok (some (f, n)) ∧ n ≤ 4 + cap
  taken : ∀ f n, decode s.bytes = .ok (some (f, n)) → n ≤ 4 + cap → out.2.bytes = s.bytes.drop n
  refused : ∀ len, prefixLen s.bytes = some len → cap < len →
    (∃ e, out.1 = .error e) ∧ out.2.bytes = s.bytes.drop 4
  noFrame : out.1 = .ok none ↔ s.bytes = [] ∧ s.ends = .eof
  cutOff : s.bytes ≠ [] → splitFrame s.bytes = none → ∃ e, out.1 = .error e

/-- The stream ends, cleanly, inside a length prefix. -/
def EndsInPrefix (s : Stream) : Prop :=
  s.ends = .eof ∧ 0 < s.bytes.length ∧ s.bytes.length < 4

theorem ReadsFirst.agrees_iff {decode : Decoder F Error} (hd : SplitsFrames decode) {cap : Nat}
    {s : Stream} {out : Except Anyhow (Option F) × Stream} (h : ReadsFirst decode cap s out) :
    AgreesWithCodec decode cap s out ↔ ¬EndsInPrefix s := by
  constructor
  · rintro hagrees ⟨he, hpos, hlt⟩
    have hnil := (hagrees.noFrame.mp (h.ended hlt he)).1
    rw [hnil] at hpos
    exact absurd hpos (by simp)
  · intro hends
    -- what the reader returns, by how far the stream goes
    have hshort : s.bytes.length < 4 → (out.1 = .ok none ∧ s.bytes = [] ∧ s.ends = .eof) ∨
        (∃ e, out.1 = .error e) ∧ ¬(s.bytes = [] ∧ s.ends = .eof) := by
      intro hlt
      by_cases he : s.ends = .eof
      · have hnil : s.bytes = [] := by
          by_contra hne
          exact hends ⟨he, List.length_pos_iff.mpr hne, hlt⟩
        exact .inl ⟨h.ended hlt he, hnil, he⟩
      · exact .inr ⟨h.failed hlt he, fun hc => he hc.2⟩
    have hlong : ∀ len, prefixLen s.bytes = some len →
        (∃ e, out.1 = .error e) ∧ (∀ f n, decode s.bytes = .ok (some (f, n)) → ¬n ≤ 4 + cap) ∨
        ∃ f n, out.1 = .ok (some f) ∧ decode s.bytes = .ok (some (f, n)) ∧ n ≤ 4 + cap ∧
          out.2.bytes = s.bytes.drop n := by
      intro len hlen
      by_cases hcap : len ≤ cap
      · by_cases hle : 4 + len ≤ s.bytes.length
        · cases hdec : decode s.bytes with
          | error e => exact .inl ⟨h.malformed len e hlen hle hdec, by simp⟩
          | ok o =>
            cases o with
            | none =>
              have := splitFrame_eq_none.mp (hd.waits hdec) len hlen
              omega
            | some p =>
              obtain ⟨f, n⟩ := p
              obtain ⟨hf, hb⟩ := h.frame len f n hlen hcap hle hdec
              have hn := length_of_frame hd hdec hlen
              exact .inr ⟨f, n, hf, rfl, by omega, hb⟩
        · refine .inl ⟨h.cutOff len hlen (by omega), fun f n hdec => ?_⟩
          obtain ⟨len', hlen', -, hle'⟩ := hd.announced hdec
          rw [hlen] at hlen'
          cases hlen'
          omega
      · refine .inl ⟨(h.refused len hlen (by omega)).1, fun f n hdec => ?_⟩
        have hn := length_of_frame hd hdec hlen
        omega
    have hnone : prefixLen s.bytes = none → ∀ f n, decode s.bytes ≠ .ok (some (f, n)) := by
      intro hp f n hdec
      obtain ⟨len, hlen, -⟩ := hd.announced hdec
      rw [hp] at hlen
      cases hlen
    cases hp : prefixLen s.bytes with
    | none =>
      rcases hshort (prefixLen_eq_none.mp hp) with ⟨ho, hnil, he⟩ | ⟨⟨e, ho⟩, hnot⟩
      · exact {
          frame := fun f => by simp [ho, hnone hp]
          taken := fun f n hdec => absurd hdec (hnone hp f n)
          refused := fun len hlen => by rw [hp] at hlen; cases hlen
          noFrame := by simp [ho, hnil, he]
          cutOff := fun hne => absurd hnil hne }
      · exact {
          frame := fun f => by simp [ho, hnone hp]
          taken := fun f n hdec => absurd hdec (hnone hp f n)
          refused := fun len hlen => by rw [hp] at hlen; cases hlen
          noFrame := by simp [ho, hnot]
          cutOff := fun _ _ => ⟨e, ho⟩ }
    | some len =>
      have hnil : s.bytes ≠ [] := fun hn => by rw [hn] at hp; cases hp
      rcases hlong len hp with ⟨⟨e, ho⟩, hno⟩ | ⟨f, n, ho, hdec, hn, hb⟩
      · exact {
          frame := fun f => by
            refine ⟨fun hf => ?_, fun ⟨n, hdec, hn⟩ => absurd hn (hno f n hdec)⟩
            rw [ho] at hf
            cases hf
          taken := fun f n hdec hn => absurd hn (hno f n hdec)
          refused := h.refused
          noFrame := by simp [ho, hnil]
          cutOff := fun _ _ => ⟨e, ho⟩ }
      · exact {
          frame := fun f' => by
            refine ⟨fun hf => ?_, fun ⟨n', hdec', hn'⟩ => ?_⟩
            · rw [ho] at hf
              cases hf
              exact ⟨n, hdec, hn⟩
            · rw [hdec] at hdec'
              cases hdec'
              exact ho
          taken := fun f' n' hdec' hn' => by
            rw [hdec] at hdec'
            cases hdec'
            exact hb
          refused := h.refused
          noFrame := by simp [ho, hnil]
          cutOff := fun _ hs => by
            obtain ⟨body, hs'⟩ := hd.whole hdec
            rw [hs] at hs'
            cases hs' }

/-- The three readers agree with their codecs on a stream, whatever the cap and however the
stream is cut, exactly when it does not end inside a length prefix. -/
theorem readers_agree (s : Stream) (cap : Nat) :
    (AgreesWithCodec Frame.decode cap s (readFrameWithin s cap) ↔ ¬EndsInPrefix s) ∧
    (∀ (α : Type) [Serde α] (max : Nat), AgreesWithCodec (decodeFrame max : Decoder α Error) cap s
      (Directory.readCapped s cap (decodeFrame max)) ↔ ¬EndsInPrefix s) ∧
    (AgreesWithCodec InboxFrame.decode cap s (readInboxFrameWithin s cap) ↔ ¬EndsInPrefix s) :=
  ⟨(readFrameWithin_reads s cap).agrees_iff Frame.splits,
    fun _ _ _ => (readCapped_reads decodeFrame_splits s cap).agrees_iff decodeFrame_splits,
    (readInboxFrameWithin_reads s cap).agrees_iff InboxFrame.splits⟩

/-- Two bytes of a length prefix, and then the end of the stream. -/
def cutPrefix : Stream := ⟨[0, 0], [], .eof⟩

/-- Of a stream that ends inside a length prefix, each reader says that it ended between frames. -/
theorem not_readers_agree :
    ¬AgreesWithCodec Frame.decode MAX_FRAME cutPrefix (readFrame cutPrefix) ∧
    ¬AgreesWithCodec Directory.SubFrame.decode MAX_DIRECTORY_FRAME cutPrefix
      (Directory.readSubFrame cutPrefix) ∧
    ¬AgreesWithCodec InboxFrame.decode MAX_INBOX_FRAME cutPrefix (readInboxFrame cutPrefix) := by
  have hends : EndsInPrefix cutPrefix := ⟨rfl, by decide, by decide⟩
  refine ⟨fun h => ?_, fun h => ?_, fun h => ?_⟩
  · exact ((readFrameWithin_reads cutPrefix _).agrees_iff Frame.splits).mp h hends
  · exact ((readCapped_reads decodeFrame_splits cutPrefix _).agrees_iff decodeFrame_splits).mp h hends
  · exact ((readInboxFrameWithin_reads cutPrefix _).agrees_iff InboxFrame.splits).mp h hends

end Wires
