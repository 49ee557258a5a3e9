import Wires.Impl.Control

/-!
# Lines over the control sockets

What the line reader makes of a stream that comes in chunks, against
`cappedLines`, which knows of none: they are the same exactly where some chunk
ends within the first line that is too long, after more than the cap of its
bytes (`lines_iff`). `serve_conn` answers the lines that are read, each that is
not blank with one reply (`serveConn_eq`).
-/

namespace Wires

/-- What the lines of a stream are, and how they end, if each is at most `cap` bytes long. -/
def cappedLines (cap : Nat) (ends : Ending) (bytes : List UInt8) :
    List (List UInt8) × Except Anyhow Unit :=
  let (lines, tail) := splitLines NEWLINE bytes
  if lines.all (fun l => l.length ≤ cap) && tail.length ≤ cap then
    match ends with
    | .eof => (lines ++ if tail = [] then [] else [tail], .ok ())
    | .failed why => (lines, .error ["reading a control request", why])
  else (lines.takeWhile fun l => l.length ≤ cap, .error (lineTooLong cap))

/-- The first line of a stream that is longer than `cap`, and what is ahead of it. -/
def FirstLong (cap : Nat) (bytes pre line : List UInt8) : Prop :=
  ∃ (lines : List (List UInt8)) (rest : List UInt8), bytes = pre ++ line ++ rest ∧ pre = lines.flatMap (· ++ [NEWLINE]) ∧
    (∀ l ∈ lines, NEWLINE ∉ l ∧ l.length ≤ cap) ∧ NEWLINE ∉ line ∧ cap < line.length ∧
    ∀ b ∈ rest.head?, b = NEWLINE

/-- Some chunk ends within the line, after more than `cap` of its bytes. -/
def CutPast (cap : Nat) (cs : List (Chunk UInt8)) (pre line : List UInt8) : Prop :=
  ∃ n, EndsAt cs n ∧ pre.length + cap < n ∧ n ≤ pre.length + line.length

/-! ## One line -/

variable {cap : Nat} {ends : Ending} {line l bytes pre post : List UInt8}
  {cs rest : List (Chunk UInt8)}

/-- A stream with no newline left is refused if it is too long. -/
theorem readCappedLine_long (hnone : NEWLINE ∉ joined cs) (hline : line.length ≤ cap)
    (hlong : cap < line.length + (joined cs).length) :
    (readCappedLine cap ends line cs).1 = .error (lineTooLong cap) := by
  induction cs generalizing line with
  | nil =>
    rw [joined_nil, List.length_nil] at hlong
    omega
  | cons c cs ih =>
    rw [joined_cons, List.mem_append, not_or] at hnone
    rw [joined_cons, List.length_append] at hlong
    rw [readCappedLine, List.idxOf?_eq_none_iff.mpr hnone.1]
    dsimp only
    split
    · rfl
    · rename_i hok
      apply ih hnone.2 (by omega)
      rw [List.length_append]
      omega

/-- A stream with no newline left is the last line. -/
theorem readCappedLine_tail (hnone : NEWLINE ∉ joined cs)
    (hshort : line.length + (joined cs).length ≤ cap) :
    readCappedLine cap ends line cs = (match ends with
      | .eof => .ok (if line ++ joined cs = [] then none else some (line ++ joined cs))
      | .failed why => .error ["reading a control request", why], []) := by
  induction cs generalizing line with
  | nil =>
    rw [joined_nil, List.append_nil]
    cases ends <;> rfl
  | cons c cs ih =>
    rw [joined_cons, List.mem_append, not_or] at hnone
    rw [joined_cons, List.length_append] at hshort
    rw [readCappedLine, List.idxOf?_eq_none_iff.mpr hnone.1]
    dsimp only
    rw [if_neg (by rw [List.length_append]; omega), ih hnone.2 (by rw [List.length_append]; omega),
      joined_cons, List.append_assoc]

/-- Chunks end within a line as those behind the first do. -/
theorem cut_cons {c : Chunk UInt8} {k : Nat} (hk : k ≤ cap) :
    (∃ n, EndsAt (c :: cs) n ∧ cap < k + n ∧ n ≤ c.val.length + l.length) ↔
      ∃ n, EndsAt cs n ∧ cap < k + c.val.length + n ∧ n ≤ l.length := by
  constructor
  · rintro ⟨n, hn, hpast, hle⟩
    rcases endsAt_cons.mp hn with h0 | ⟨m, hm, hends⟩
    · omega
    · exact ⟨m, hends, by omega, by omega⟩
  · rintro ⟨m, hends, hpast, hle⟩
    exact ⟨c.val.length + m, endsAt_cons.mpr (.inr ⟨m, rfl, hends⟩), by omega, by omega⟩

/-- A stream with a newline left is refused where a chunk ends before it, past the cap; else the line
is read. -/
theorem readCappedLine_newline (hjoined : joined cs = l ++ NEWLINE :: post) (hl : NEWLINE ∉ l)
    (hline : line.length ≤ cap) :
    ((∃ n, EndsAt cs n ∧ cap < line.length + n ∧ n ≤ l.length) →
      (readCappedLine cap ends line cs).1 = .error (lineTooLong cap)) ∧
    ((¬∃ n, EndsAt cs n ∧ cap < line.length + n ∧ n ≤ l.length) →
      ∃ rest, readCappedLine cap ends line cs = (.ok (some (line ++ l)), rest) ∧
        joined rest = post ∧ ∀ n, 0 < n → (EndsAt rest n ↔ EndsAt cs (l.length + 1 + n))) := by
  induction cs generalizing line l with
  | nil => simp at hjoined
  | cons c cs ih =>
    rw [joined_cons] at hjoined
    rw [readCappedLine]
    cases hat : c.val.idxOf? NEWLINE with
    | some k =>
      obtain ⟨hsplit, hnot⟩ := split_of_idxOf? hat
      have heq : c.val.take k ++ NEWLINE :: (c.val.drop (k + 1) ++ joined cs) = l ++ NEWLINE :: post := by
        rw [← hjoined, ← List.cons_append, ← List.append_assoc, ← hsplit]
      obtain ⟨htake, hpost⟩ := append_sep_inj hnot hl heq
      have hlength : l.length < c.val.length := by
        rw [hsplit, htake, List.length_append, List.length_cons]
        omega
      have hc : c.val = (l ++ [NEWLINE]) ++ c.val.drop (k + 1) := by
        rw [← htake, List.append_assoc]
        exact hsplit
      constructor
      · intro hends
        obtain ⟨n, hn, hpast, hle⟩ := hends
        rcases endsAt_cons.mp hn with h0 | ⟨m, hm, -⟩ <;> omega
      · intro hnone
        refine ⟨unread (c.val.drop (k + 1)) cs, ?_, ?_, ?_⟩
        · simp only [htake]
        · rw [joined_unread, hpost]
        · intro n hn
          rw [endsAt_unread hc hn, List.length_append, List.length_singleton]
    | none =>
      have hnone : NEWLINE ∉ c.val := List.idxOf?_eq_none_iff.mp hat
      obtain ⟨l', rfl, hrest⟩ : ∃ l', l = c.val ++ l' ∧ joined cs = l' ++ NEWLINE :: post := by
        rcases List.append_eq_append_iff.mp hjoined with ⟨l', hl', hrest⟩ | ⟨l', hl', hrest⟩
        · exact ⟨l', hl', hrest⟩
        · cases l' with
          | nil => exact ⟨[], by simpa using hl'.symm, by simpa using hrest.symm⟩
          | cons b bs =>
            have hb : NEWLINE = b := (List.cons.inj hrest).1
            exact absurd (by simp [hl', hb]) hnone
      have hl' : NEWLINE ∉ l' := fun hm => hl (List.mem_append_right _ hm)
      rw [List.length_append, cut_cons hline, ← List.length_append]
      dsimp only
      split
      · rename_i hlong
        refine ⟨fun _ => rfl, fun hno => absurd ⟨0, ⟨[], List.nil_prefix, rfl⟩, ?_, Nat.zero_le _⟩ hno⟩
        omega
      · rename_i hok
        obtain ⟨hcut, hread⟩ := ih hrest hl' (not_lt.mp hok)
        refine ⟨hcut, fun hno => ?_⟩
        obtain ⟨rest, hr, hpost, hends⟩ := hread hno
        refine ⟨rest, by rw [hr, List.append_assoc], hpost, fun n hn => ?_⟩
        rw [hends n hn, endsAt_cons]
        constructor
        · exact fun h => .inr ⟨_, by omega, h⟩
        · rintro (h0 | ⟨m, hm, h⟩)
          · omega
          · rwa [show l'.length + 1 + n = m by omega]

/-! ## The lines -/

theorem readLines_eq (cap : Nat) (ends : Ending) (cs : List (Chunk UInt8)) :
    readLines cap ends cs = match readCappedLine cap ends [] cs with
      | (.error e, _) => ([], .error e)
      | (.ok none, _) => ([], .ok ())
      | (.ok (some line), rest) =>
        (line :: (readLines cap ends rest).1, (readLines cap ends rest).2) := by
  rw [readLines]
  split <;> rename_i h <;> rw [h]

theorem readLines_of_error {e : Anyhow} (h : (readCappedLine cap ends [] cs).1 = .error e) :
    readLines cap ends cs = ([], .error e) := by
  rw [readLines_eq]
  split
  · rename_i hr
    rw [hr] at h
    cases h
    rfl
  · rename_i hr
    rw [hr] at h
    cases h
  · rename_i hr
    rw [hr] at h
    cases h

theorem readLines_tail (hnone : NEWLINE ∉ joined cs) (hshort : (joined cs).length ≤ cap) :
    readLines cap ends cs = match ends with
      | .eof => (if joined cs = [] then [] else [joined cs], .ok ())
      | .failed why => ([], .error ["reading a control request", why]) := by
  have htail := @readCappedLine_tail cap ends [] cs hnone (by simpa using hshort)
  have hend : readLines cap .eof [] = ([], .ok ()) := by
    rw [readLines_eq]
    rfl
  rw [List.nil_append] at htail
  rw [readLines_eq, htail]
  cases ends with
  | failed why => rfl
  | eof =>
    by_cases hempty : joined cs = []
    · simp [hempty]
    · simp [hempty, hend]

theorem serveConn_line {ρ : Type} [Web] (authority : Authority) (env : Nat → LineEnv ρ)
    (ends : Ending) (n : Nat) (line : List UInt8) (rest : List (Chunk UInt8)) :
    (if line.all isAsciiWhitespace then serveConn authority env ends (n + 1) rest
      else
        match (env n).unwritable with
        | some e => ([], .error e)
        | none =>
          let (replies, result) := serveConn authority env ends (n + 1) rest
          (respond authority (env n) line :: replies, result)) =
      if line.all isAsciiWhitespace then serveConn authority env ends (n + 1) rest
      else
        match (env n).unwritable with
        | some e => ([], .error e)
        | none => (respond authority (env n) line :: (serveConn authority env ends (n + 1) rest).1,
            (serveConn authority env ends (n + 1) rest).2) := by
  split
  · rfl
  · cases (env n).unwritable <;> rfl

theorem serveConn_unfold {ρ : Type} [Web] (authority : Authority) (env : Nat → LineEnv ρ)
    (ends : Ending) (n : Nat) (cs : List (Chunk UInt8)) :
    serveConn authority env ends n cs = match readCappedLine MAX_REQUEST_LINE ends [] cs with
      | (.error e, _) => ([], .error e)
      | (.ok none, _) => ([], .ok ())
      | (.ok (some line), rest) =>
        if line.all isAsciiWhitespace then serveConn authority env ends (n + 1) rest
        else
          match (env n).unwritable with
          | some e => ([], .error e)
          | none => (respond authority (env n) line :: (serveConn authority env ends (n + 1) rest).1,
              (serveConn authority env ends (n + 1) rest).2) := by
  rw [serveConn]
  split
  · rename_i h
    rw [h]
  · rename_i h
    rw [h]
  · rename_i line rest h
    exact (serveConn_line authority env ends n line rest).trans (by rw [h])

/-! ## What is asked of them -/

theorem cappedLines_tail (h : NEWLINE ∉ bytes) : cappedLines cap ends bytes =
    if cap < bytes.length then ([], .error (lineTooLong cap))
    else
      match ends with
      | .eof => (if bytes = [] then [] else [bytes], .ok ())
      | .failed why => ([], .error ["reading a control request", why]) := by
  rw [cappedLines, splitLines_of_notMem h]
  by_cases hlong : cap < bytes.length
  · have hnot : ¬bytes.length ≤ cap := by omega
    simp [hlong, hnot]
  · have hle : bytes.length ≤ cap := by omega
    simp [hlong, hle]

theorem cappedLines_cons (h : NEWLINE ∉ l) : cappedLines cap ends (l ++ NEWLINE :: post) =
    if cap < l.length then ([], .error (lineTooLong cap))
    else (l :: (cappedLines cap ends post).1, (cappedLines cap ends post).2) := by
  rw [cappedLines, splitLines_append h, cappedLines]
  by_cases hlong : cap < l.length
  · have hnot : ¬l.length ≤ cap := by omega
    simp [hlong, hnot]
  · have hle : l.length ≤ cap := by omega
    simp only [if_neg hlong, List.all_cons, hle, decide_true, Bool.true_and, List.cons_append,
      List.takeWhile_cons, if_true]
    split
    · cases ends <;> rfl
    · rfl

theorem firstLong_tail (h : NEWLINE ∉ bytes) :
    FirstLong cap bytes pre line ↔ pre = [] ∧ line = bytes ∧ cap < bytes.length := by
  constructor
  · rintro ⟨lines, rest, hbytes, hpre, -, -, hlong, hhead⟩
    have hrest : rest = [] := by
      cases rest with
      | nil => rfl
      | cons b rest =>
        have hb : b = NEWLINE := hhead b rfl
        exact absurd (by simp [hbytes, hb]) h
    have hlines : lines = [] := by
      cases lines with
      | nil => rfl
      | cons l lines => exact absurd (by simp [hbytes, hpre]) h
    rw [hrest, hpre, hlines] at hbytes
    have hline : bytes = line := by simpa using hbytes
    exact ⟨by rw [hpre, hlines]; rfl, hline.symm, hline ▸ hlong⟩
  · rintro ⟨rfl, rfl, hlong⟩
    exact ⟨[], [], by simp, rfl, by simp, h, hlong, by simp⟩

/-- The first line is too long, or the first that is comes after it. -/
theorem firstLong_newline (h : NEWLINE ∉ l) : FirstLong cap (l ++ NEWLINE :: post) pre line ↔
    (pre = [] ∧ line = l ∧ cap < l.length) ∨
      l.length ≤ cap ∧ ∃ pre', pre = l ++ NEWLINE :: pre' ∧ FirstLong cap post pre' line := by
  constructor
  · rintro ⟨lines, rest, hbytes, rfl, hshort, hline, hlong, hhead⟩
    cases lines with
    | nil =>
      left
      rw [List.flatMap_nil, List.nil_append] at hbytes
      cases rest with
      | nil =>
        rw [List.append_nil] at hbytes
        exact absurd (by simp [← hbytes]) hline
      | cons b rest =>
        obtain rfl : b = NEWLINE := hhead b rfl
        obtain ⟨rfl, -⟩ := append_sep_inj h hline hbytes
        exact ⟨rfl, rfl, hlong⟩
    | cons x lines =>
      right
      obtain ⟨hx, hxs⟩ := List.forall_mem_cons.mp hshort
      have heq : l ++ NEWLINE :: post =
          x ++ NEWLINE :: (lines.flatMap (· ++ [NEWLINE]) ++ line ++ rest) := by
        simpa using hbytes
      obtain ⟨rfl, hpost⟩ := append_sep_inj h hx.1 heq
      exact ⟨hx.2, _, by simp, lines, rest, hpost, rfl, hxs, hline, hlong, hhead⟩
  · rintro (⟨rfl, rfl, hlong⟩ | ⟨hle, pre', rfl, lines, rest, hpost, rfl, hshort, hline, hlong, hhead⟩)
    · exact ⟨[], NEWLINE :: post, by simp, rfl, by simp, h, hlong, by simp⟩
    · exact ⟨l :: lines, rest, by simp [hpost], by simp, List.forall_mem_cons.mpr ⟨⟨h, hle⟩, hshort⟩,
        hline, hlong, hhead⟩

/-! ## Chunks and lines -/

/-- A line that was read does not change how the chunks cut those behind it. -/
theorem cutPast_cons (hends : ∀ n, 0 < n → (EndsAt rest n ↔ EndsAt cs (l.length + 1 + n))) :
    CutPast cap cs (l ++ NEWLINE :: pre) line ↔ CutPast cap rest pre line := by
  have hlength : (l ++ NEWLINE :: pre).length = l.length + 1 + pre.length := by
    rw [List.length_append, List.length_cons]
    omega
  unfold CutPast
  rw [hlength]
  constructor
  · rintro ⟨n, hn, hpast, hle⟩
    refine ⟨n - (l.length + 1), (hends _ (by omega)).mpr ?_, by omega, by omega⟩
    rwa [show l.length + 1 + (n - (l.length + 1)) = n by omega]
  · rintro ⟨n, hn, hpast, hle⟩
    exact ⟨l.length + 1 + n, (hends n (by omega)).mp hn, by omega, by omega⟩

/-- The lines are read as they should be exactly if some chunk ends within the first one that is too
long, after more than the cap of its bytes. -/
theorem lines_iff (cap : Nat) (ends : Ending) (cs : List (Chunk UInt8)) :
    readLines cap ends cs = cappedLines cap ends (joined cs) ↔
      ∀ pre line, FirstLong cap (joined cs) pre line → CutPast cap cs pre line := by
  induction hn : (joined cs).length using Nat.strong_induction_on generalizing cs with
  | _ n ih =>
    subst hn
    by_cases hmem : NEWLINE ∈ joined cs
    · obtain ⟨l, post, hjoined, hl⟩ := List.eq_append_cons_of_mem hmem
      obtain ⟨hcut, hread⟩ := @readCappedLine_newline cap ends [] l post cs hjoined hl (Nat.zero_le cap)
      rw [hjoined, cappedLines_cons hl]
      simp only [firstLong_newline hl]
      by_cases hex : ∃ n, EndsAt cs n ∧ cap < ([] : List UInt8).length + n ∧ n ≤ l.length
      · -- refused where it should be
        obtain ⟨n, hn, hpast, hle⟩ := hex
        rw [List.length_nil, Nat.zero_add] at hpast
        have hlong : cap < l.length := by omega
        rw [readLines_of_error (hcut ⟨n, hn, by simpa using hpast, hle⟩), if_pos hlong]
        refine iff_of_true rfl fun pre line hfirst => ?_
        rcases hfirst with ⟨rfl, rfl, -⟩ | ⟨hshort, -⟩
        · exact ⟨n, hn, by simpa using hpast, by simpa using hle⟩
        · omega
      · obtain ⟨rest, hr, hpost, hends⟩ := hread hex
        rw [List.nil_append] at hr
        rw [readLines_eq, hr]
        by_cases hlong : cap < l.length
        · -- read, and should have been refused
          rw [if_pos hlong]
          refine iff_of_false (by simp) fun hall => hex ?_
          obtain ⟨n, hn, hpast, hle⟩ := hall [] l (.inl ⟨rfl, rfl, hlong⟩)
          exact ⟨n, hn, by simpa using hpast, by simpa using hle⟩
        · have hless : (joined rest).length < (joined cs).length := by
            rw [hpost, hjoined, List.length_append, List.length_cons]
            omega
          have hrest := ih _ hless rest rfl
          rw [hpost] at hrest
          rw [if_neg hlong]
          simp only [Prod.mk.injEq, List.cons.injEq, true_and]
          rw [← Prod.ext_iff, hrest]
          constructor
          · rintro hall pre line (⟨-, -, hlong'⟩ | ⟨-, pre', rfl, hfirst⟩)
            · exact absurd hlong' hlong
            · exact (cutPast_cons hends).mpr (hall pre' line hfirst)
          · intro hall pre line hfirst
            exact (cutPast_cons hends).mp (hall _ line (.inr ⟨by omega, pre, rfl, hfirst⟩))
    · rw [cappedLines_tail hmem]
      simp only [firstLong_tail hmem]
      by_cases hlong : cap < (joined cs).length
      · rw [readLines_of_error (readCappedLine_long hmem (Nat.zero_le cap) (by simpa using hlong)),
          if_pos hlong]
        refine iff_of_true rfl ?_
        rintro pre line ⟨rfl, rfl, -⟩
        exact ⟨_, endsAt_joined cs, by simpa using hlong, by simp⟩
      · rw [readLines_tail hmem (by omega), if_neg hlong]
        refine iff_of_true rfl ?_
        rintro pre line ⟨-, -, hlong'⟩
        exact absurd hlong' hlong

/-! ## Replies -/

section

variable {ρ : Type} [Web]

/-- Each line that is read and is not blank is answered with one reply, in order. -/
theorem serveConn_eq (authority : Authority) (env : Nat → LineEnv ρ) (ends : Ending) (n : Nat)
    (cs : List (Chunk UInt8)) (hwritable : ∀ k, (env k).unwritable = none) :
    serveConn authority env ends n cs =
      (((readLines MAX_REQUEST_LINE ends cs).1.zipIdx n).filterMap fun p =>
        if p.1.all isAsciiWhitespace then none else some (respond authority (env p.2) p.1),
      (readLines MAX_REQUEST_LINE ends cs).2) := by
  induction hlen : (joined cs).length using Nat.strong_induction_on generalizing cs n with
  | _ m ih =>
    subst hlen
    rw [serveConn_unfold, readLines_eq]
    split
    · rfl
    · rfl
    · rename_i line rest hr
      have hless := length_readCappedLine hr (.inr rfl)
      have hrest := ih _ hless (n + 1) rest rfl
      dsimp only
      rw [List.zipIdx_cons]
      by_cases hblank : line.all isAsciiWhitespace = true
      · rw [if_pos hblank, hrest, List.filterMap_cons_none (by simp [hblank])]
      · rw [if_neg hblank, hwritable n, hrest,
          List.filterMap_cons_some (b := respond authority (env n) line) (by simp [hblank])]

/-- The reader is exact on just the streams whose first line that is too long is cut past the cap;
the replies are those of the lines it reads. -/
theorem control_exact :
    (∀ (cap : Nat) (ends : Ending) (cs : List (Chunk UInt8)),
      readLines cap ends cs = cappedLines cap ends (joined cs) ↔
        ∀ pre line, FirstLong cap (joined cs) pre line → CutPast cap cs pre line) ∧
    ∀ (authority : Authority) (env : Nat → LineEnv ρ) (ends : Ending) (cs : List (Chunk UInt8)),
      (∀ k, (env k).unwritable = none) → serveConn authority env ends 0 cs =
        ((readLines MAX_REQUEST_LINE ends cs).1.zipIdx.filterMap fun p =>
          if p.1.all isAsciiWhitespace then none else some (respond authority (env p.2) p.1),
        (readLines MAX_REQUEST_LINE ends cs).2) :=
  ⟨lines_iff, fun authority env ends cs => serveConn_eq authority env ends 0 cs⟩

end

/-! ## A line a byte too long -/

section Sample

theorem full_ne_nil : List.replicate 8192 (0x78 : UInt8) ≠ [] := fun h =>
  absurd ((List.replicate_eq_nil_iff _).mp h) (by decide)

theorem last_ne_nil : [0x78, NEWLINE] ≠ [] := List.cons_ne_nil _ _

/-- As many full buffers of `x` as make up the cap, and one more byte with the newline. -/
def sampleChunks : List (Chunk UInt8) :=
  List.replicate 128 ⟨List.replicate 8192 0x78, full_ne_nil⟩ ++ [⟨[0x78, NEWLINE], last_ne_nil⟩]

theorem joined_replicate (n k : Nat) (h : List.replicate k (0x78 : UInt8) ≠ []) :
    joined (List.replicate n ⟨List.replicate k 0x78, h⟩) = List.replicate (n * k) 0x78 := by
  induction n with
  | zero => rw [Nat.zero_mul]; rfl
  | succ n ih =>
    rw [List.replicate_succ, joined_cons, ih, Nat.succ_mul, Nat.add_comm, List.replicate_add]

/-- A line one byte longer than the cap is read. -/
theorem not_lines_capped : ¬∀ cs : List (Chunk UInt8),
    readLines MAX_REQUEST_LINE .eof cs = cappedLines MAX_REQUEST_LINE .eof (joined cs) := by
  intro hall
  have hfull := joined_replicate 128 8192 full_ne_nil
  have hjoined : joined sampleChunks =
      [] ++ List.replicate (MAX_REQUEST_LINE + 1) 0x78 ++ [NEWLINE] := by
    have hcap : 128 * 8192 = MAX_REQUEST_LINE := rfl
    rw [sampleChunks, joined_append, hfull, hcap, List.replicate_succ']
    simp only [joined_cons, joined_nil, List.append_nil, List.nil_append, List.append_assoc,
      List.cons_append]
  have hfirst : FirstLong MAX_REQUEST_LINE (joined sampleChunks) []
      (List.replicate (MAX_REQUEST_LINE + 1) 0x78) := by
    refine ⟨[], [NEWLINE], hjoined, rfl, by simp, fun hmem => ?_, by simp, by simp⟩
    exact absurd (List.eq_of_mem_replicate hmem) (by decide)
  obtain ⟨n, hn, hpast, hle⟩ := (lines_iff _ _ _).mp (hall sampleChunks) _ _ hfirst
  rw [List.length_nil, Nat.zero_add] at hpast hle
  rw [List.length_replicate] at hle
  have hends := endsAt_concat hn
  rw [hfull, List.length_replicate] at hends
  have hcap : MAX_REQUEST_LINE = 128 * 8192 := rfl
  have hlast : [0x78, NEWLINE].length = 2 := rfl
  rcases hends with hless | heq
  · omega
  · rw [hlast] at heq
    omega

end Sample

end Wires
