import Wires.Impl.Shape

/-!
# What is kept of an output

Each of the three scans ends where the longest text that fits does, where there
is a text (`charFloor_utf8`, `reasonEnd_eq`, `cappedCut_eq`). `charFloor`, of
any bytes, leaves out no more than the beginning of one character
(`charFloor_cases`), and `headLen` is the length of the longest prefix with no
more lines (`longest_headLen`).
-/

namespace Wires

variable {bs : List UInt8} {cs : List Char} {n cut : Nat}

/-! ## Lines -/

/-- Where the newlines of a list are. -/
def newlines (bs : List UInt8) : List (UInt8 × Nat) := bs.zipIdx.filter fun p => p.1 = LINE_FEED

theorem newlines_cons (b : UInt8) (bs : List UInt8) : newlines (b :: bs) =
    (if b = LINE_FEED then [(b, 0)] else []) ++ (newlines bs).map fun p => (p.1, p.2 + 1) := by
  have hshift : (bs.zipIdx 1).filter (fun p => p.1 = LINE_FEED) =
      (newlines bs).map fun p => (p.1, p.2 + 1) := by
    rw [List.zipIdx_succ, List.filter_map]
    rfl
  rw [newlines, List.zipIdx_cons, List.filter_cons, hshift]
  by_cases hb : b = LINE_FEED
  · simp [hb]
  · simp [hb]

theorem headLen_eq (bs : List UInt8) (n : Nat) :
    headLen bs (n + 1) = (((newlines bs)[n]?).map fun p => p.2 + 1).getD bs.length := by
  rw [headLen, if_neg (Nat.succ_ne_zero n), Nat.add_sub_cancel, newlines]
  cases (bs.zipIdx.filter fun p => p.1 = LINE_FEED)[n]? with
  | none => rfl
  | some p => rfl

/-- Behind a byte the lines are those of the rest, one less where it ended one. -/
theorem headLen_cons (b : UInt8) (bs : List UInt8) (n : Nat) :
    headLen (b :: bs) (n + 1) = headLen bs (if b = LINE_FEED then n else n + 1) + 1 := by
  have hmap : ∀ m : Nat, ((((newlines bs).map fun p => (p.1, p.2 + 1))[m]?).map fun p => p.2 + 1).getD
      (bs.length + 1) = headLen bs (m + 1) + 1 := by
    intro m
    rw [headLen_eq, List.getElem?_map]
    cases (newlines bs)[m]? with
    | none => rfl
    | some p => rfl
  rw [headLen_eq, newlines_cons, List.length_cons]
  by_cases hb : b = LINE_FEED
  · rw [if_pos hb, if_pos hb]
    cases n with
    | zero => rfl
    | succ m => exact hmap m
  · rw [if_neg hb, if_neg hb]
    exact hmap n

/-- Bytes without a newline are of the first line. -/
theorem take_headLen_append {as : List UInt8} (h : LINE_FEED ∉ as) (bs : List UInt8) (n : Nat) :
    (as ++ bs).take (headLen (as ++ bs) (n + 1)) = as ++ bs.take (headLen bs (n + 1)) := by
  induction as with
  | nil => rfl
  | cons a as ih =>
    obtain ⟨ha, has⟩ := not_or.mp (mt List.mem_cons.mpr h)
    rw [List.cons_append, headLen_cons, if_neg (Ne.symm ha), List.take_succ_cons, ih has,
      List.cons_append]

/-- No other character has the byte of a newline. -/
theorem eq_of_lineFeed_mem {c : Char} (h : LINE_FEED ∈ String.utf8EncodeChar c) : c = '\n' := by
  obtain ⟨b, bs, heq, -, hbs, -⟩ := utf8EncodeChar_cons c
  rw [heq] at h
  rcases List.mem_cons.mp h with hb | hmem
  · have hpre : utf8 ['\n'] <+: utf8 [c] := by
      have hc : utf8 [c] = LINE_FEED :: (bs ++ utf8 []) := by
        rw [utf8_cons, heq, hb, List.cons_append]
      have hn : utf8 ['\n'] = [LINE_FEED] := by decide
      rw [hc, hn]
      exact List.prefix_append [LINE_FEED] _
    exact (List.cons_prefix_cons.mp (utf8_prefix_utf8_iff.mp hpre)).1.symm
  · have hcont := hbs LINE_FEED hmem
    cases hcont

/-- The first lines of a text are a text. -/
theorem exists_take_headLen (cs : List Char) (n : Nat) :
    ∃ hs, hs <+: cs ∧ (utf8 cs).take (headLen (utf8 cs) n) = utf8 hs := by
  induction cs generalizing n with
  | nil => exact ⟨[], List.nil_prefix, List.take_nil⟩
  | cons c cs ih =>
    cases n with
    | zero => exact ⟨[], List.nil_prefix, rfl⟩
    | succ n =>
      by_cases hc : c = '\n'
      · obtain ⟨hs, hpre, heq⟩ := ih n
        have hcons : ∀ ds, utf8 (c :: ds) = LINE_FEED :: utf8 ds := fun ds => by rw [hc]; rfl
        refine ⟨c :: hs, List.cons_prefix_cons.mpr ⟨rfl, hpre⟩, ?_⟩
        rw [hcons, hcons, headLen_cons, if_pos rfl, List.take_succ_cons, heq]
      · obtain ⟨hs, hpre, heq⟩ := ih (n + 1)
        refine ⟨c :: hs, List.cons_prefix_cons.mpr ⟨rfl, hpre⟩, ?_⟩
        rw [utf8_cons, utf8_cons, take_headLen_append (mt eq_of_lineFeed_mem hc), heq]

theorem longest_headLen (bs : List UInt8) (n : Nat) :
    Longest (fun p => lineCount LINE_FEED p ≤ n) bs (bs.take (headLen bs n)) := by
  induction bs generalizing n with
  | nil =>
    rw [List.take_nil]
    exact Longest.self (Nat.zero_le n)
  | cons b bs ih =>
    cases n with
    | zero => exact Longest.no_lines
    | succ n =>
      rw [headLen_cons, List.take_succ_cons]
      exact (ih _).cons_lines

/-! ## The three scans -/

/-- The scan ends at a byte that continues nothing, or after three, and passed bytes that do. -/
theorem charFloorFrom_spec (bs : List UInt8) (n cut : Nat) (h : cut ≤ n) (hnear : n ≤ cut + 3) :
    charFloorFrom bs n cut ≤ cut ∧ n ≤ charFloorFrom bs n cut + 3 ∧
      ∀ i, charFloorFrom bs n cut < i → i ≤ cut → bs[i]?.any isContinuation = true := by
  induction cut with
  | zero => exact ⟨le_rfl, hnear, fun i hlt hle => absurd hlt (by omega)⟩
  | succ cut ih =>
    rw [charFloorFrom]
    split_ifs with hcont
    · obtain ⟨hle, hn, hpassed⟩ := ih (by omega) (by omega)
      refine ⟨by omega, hn, fun i hlt hi => ?_⟩
      by_cases heq : i = cut + 1
      · rw [heq]
        exact hcont.2
      · exact hpassed i hlt (by omega)
    · exact ⟨le_rfl, hnear, fun i hlt hle => absurd hlt (by omega)⟩

/-- Before `n`, the scan ends at the last byte that continues nothing, if it is near. -/
theorem charFloorFrom_eq {e : Nat} (hcut : cut ≤ n) (he : e ≤ cut) (hnear : n ≤ e + 3)
    (hend : bs[e]?.any isContinuation = false)
    (hpassed : ∀ i, e < i → i ≤ cut → bs[i]?.any isContinuation = true) :
    charFloorFrom bs n cut = e := by
  induction cut with
  | zero =>
    rw [charFloorFrom]
    omega
  | succ cut ih =>
    rw [charFloorFrom]
    by_cases heq : e = cut + 1
    · rw [← heq, if_neg]
      rw [hend]
      simp
    · have hlast := hpassed (cut + 1) (by omega) le_rfl
      rw [if_pos ⟨by omega, hlast⟩]
      exact ih (by omega) (by omega) fun i hlt hle => hpassed i hlt (by omega)

theorem charFloor_eq (h : n < bs.length) : charFloor bs n =
    if bs[charFloorFrom bs n n]?.any isContinuation = true then n else charFloorFrom bs n n := by
  rw [charFloor, if_neg (by omega)]

/-- A cut is at the limit, or before the beginning of a character that goes past it. -/
theorem charFloor_cases (h : n < bs.length) : charFloor bs n ≤ n ∧ n ≤ charFloor bs n + 3 ∧
    (charFloor bs n = n ∨ bs[charFloor bs n]?.any isContinuation = false ∧
      ∀ i, charFloor bs n < i → i ≤ n → bs[i]?.any isContinuation = true) := by
  obtain ⟨hle, hnear, hpassed⟩ := charFloorFrom_spec bs n n le_rfl (by omega)
  rw [charFloor_eq h]
  split_ifs with hcont
  · exact ⟨le_rfl, by omega, .inl rfl⟩
  · exact ⟨hle, hnear, .inr ⟨by simpa using hcont, hpassed⟩⟩

/-- Before its end, a text has a boundary where no byte continues one. -/
theorem isContinuation_iff {i : Nat} (h : i < (utf8 cs).length) :
    (utf8 cs)[i]?.any isContinuation = !isCharBoundary (utf8 cs) i := by
  rcases Nat.eq_zero_or_pos i with rfl | hpos
  · cases cs with
    | nil => rfl
    | cons c cs =>
      obtain ⟨b, rest, heq, hb, -, -⟩ := utf8EncodeChar_cons c
      rw [utf8_cons, heq, isCharBoundary_zero]
      exact hb
  · have hiff := @isCharBoundary_pos i (utf8 cs) hpos
    rw [List.getElem?_eq_getElem h] at hiff ⊢
    rw [Option.any_some]
    by_cases hb : isContinuation (utf8 cs)[i] = true
    · have hnot : ¬isCharBoundary (utf8 cs) i = true := by
        rw [hiff]
        rintro (⟨b, heq, hfalse⟩ | hend)
        · obtain rfl := Option.some.inj heq
          rw [hb] at hfalse
          cases hfalse
        · omega
      rw [hb, Bool.not_eq_true _ |>.mp hnot]
      rfl
    · have hfalse := Bool.not_eq_true _ |>.mp hb
      rw [hfalse, hiff.mpr (.inl ⟨_, rfl, hfalse⟩)]
      rfl

/-- A text is cut where the longest that fits ends. -/
theorem charFloor_utf8 (h : n < (utf8 cs).length) :
    charFloor (utf8 cs) n = (utf8 (truncateAt n cs)).length := by
  have hfits : (utf8 (truncateAt n cs)).length ≤ n := (longest_truncateAt n cs).fits
  have hend : (utf8 cs)[(utf8 (truncateAt n cs)).length]?.any isContinuation = false := by
    rw [isContinuation_iff (by omega), isCharBoundary_truncateAt]
    rfl
  have hfrom : charFloorFrom (utf8 cs) n n = (utf8 (truncateAt n cs)).length := by
    refine charFloorFrom_eq le_rfl hfits (le_length_truncateAt h) hend fun i hlt hle => ?_
    rw [isContinuation_iff (by omega), isContinuation_of_cut hlt hle]
    rfl
  rw [charFloor_eq h, hfrom, hend, if_neg Bool.false_ne_true]

theorem reasonEnd_eq (cs : List Char) (n : Nat) :
    Transport.reasonEnd (utf8 cs) n = (utf8 (truncateAt n cs)).length := by
  induction n with
  | zero =>
    rw [Transport.reasonEnd, length_truncateAt (isCharBoundary_zero _)]
  | succ n ih =>
    rw [Transport.reasonEnd]
    split_ifs with hboundary
    · rw [length_truncateAt hboundary]
    · rw [ih, truncateAt_succ (Bool.not_eq_true _ |>.mp hboundary)]

/-- The scan of `capped` ends before it overflows. -/
theorem cappedCut_eq (cs : List Char) (n : Nat) :
    Mcp.cappedCut (utf8 cs) n = some (utf8 (truncateAt n cs)).length := by
  induction n with
  | zero =>
    rw [Mcp.cappedCut, if_pos (isCharBoundary_zero _), length_truncateAt (isCharBoundary_zero _)]
  | succ n ih =>
    rw [Mcp.cappedCut]
    split_ifs with hboundary
    · rw [length_truncateAt hboundary]
    · rw [ih, truncateAt_succ (Bool.not_eq_true _ |>.mp hboundary)]

/-! ## What is kept -/

namespace Shape

/-- No more lines than `--head` says. -/
def FitsLines (head : Option Nat) (bs : List UInt8) : Prop := ∀ n ∈ head, lineCount LINE_FEED bs ≤ n

/-- No more bytes than `--max-bytes` says. -/
def FitsBytes (maxBytes : Option Nat) (bs : List UInt8) : Prop := ∀ n ∈ maxBytes, bs.length ≤ n

variable {head maxBytes : Option Nat}

theorem longest_headed (head : Option Nat) (bs : List UInt8) :
    Longest (FitsLines head) bs (headed head bs) := by
  cases head with
  | none => exact Longest.self fun n hn => by cases hn
  | some n =>
    have hlong := longest_headLen bs n
    refine ⟨hlong.isPrefix, fun m hm => ?_, fun q hq hfit => hlong.longest q hq (hfit n rfl)⟩
    obtain rfl := Option.some.inj hm
    exact hlong.fits

theorem FitsLines.mono {p : List UInt8} (hp : p <+: bs) (h : FitsLines head bs) :
    FitsLines head p := fun n hn => (lineCount_mono hp).trans (h n hn)

/-- `kept` of `whole` goes up to a byte that begins a character, and the character goes past `n`. -/
def EndsInChar (whole kept : List UInt8) (n : Nat) : Prop :=
  n ≤ kept.length + 3 ∧ whole[kept.length]?.any isContinuation = false ∧
    ∀ i, kept.length < i → i ≤ n → whole[i]?.any isContinuation = true

/-- What is cut is cut at the limit, or before the beginning of a character that goes past it. -/
theorem length_take_charFloor {whole : List UInt8} (h : n < whole.length) :
    (whole.take (charFloor whole n)).length ≤ n ∧ ((whole.take (charFloor whole n)).length = n ∨
      EndsInChar whole (whole.take (charFloor whole n)) n) := by
  obtain ⟨hle, hnear, hcases⟩ := charFloor_cases h
  have hlen : (whole.take (charFloor whole n)).length = charFloor whole n := by
    rw [List.length_take]
    omega
  rw [EndsInChar, hlen]
  refine ⟨hle, ?_⟩
  rcases hcases with heq | ⟨hend, hpassed⟩
  · exact .inl heq
  · exact .inr ⟨hnear, hend, hpassed⟩

/-- The lines of a text end where a text does. -/
theorem exists_headed (head : Option Nat) (cs : List Char) :
    ∃ hs, hs <+: cs ∧ headed head (utf8 cs) = utf8 hs := by
  cases head with
  | none => exact ⟨cs, List.prefix_refl cs, rfl⟩
  | some n => exact exists_take_headLen cs n

section

variable [Jaq] (run : JqProgram → List UInt8 → List UInt8 × Option String)

/-- Without jq, what `--head` leaves fits, or is cut, with a note. -/
theorem apply_cases (head maxBytes : Option Nat) (bs : List UInt8) :
    (FitsBytes maxBytes (headed head bs) ∧
      apply run ⟨none, head, maxBytes⟩ bs = ⟨headed head bs, [], none⟩) ∨
    ∃ n ∈ maxBytes, n < (headed head bs).length ∧ apply run ⟨none, head, maxBytes⟩ bs =
      ⟨(headed head bs).take (charFloor (headed head bs) n),
        [note (charFloor (headed head bs) n) (headed head bs).length n], none⟩ := by
  cases maxBytes with
  | none => exact .inl ⟨fun n hn => absurd hn (Option.not_mem_none n), rfl⟩
  | some n =>
    have happly : apply run ⟨none, head, some n⟩ bs = if (headed head bs).length > n then
        ⟨(headed head bs).take (charFloor (headed head bs) n),
          [note (charFloor (headed head bs) n) (headed head bs).length n], none⟩
        else ⟨headed head bs, [], none⟩ := rfl
    by_cases hlong : (headed head bs).length > n
    · rw [if_pos hlong] at happly
      exact .inr ⟨n, rfl, hlong, happly⟩
    · rw [if_neg hlong] at happly
      refine .inl ⟨fun m hm => ?_, happly⟩
      obtain rfl := Option.some.inj hm
      exact not_lt.mp hlong

/-- A text is left as one, the longest that fits. -/
theorem stdout_utf8 (head maxBytes : Option Nat) (cs : List Char) :
    ∃ ds, (apply run ⟨none, head, maxBytes⟩ (utf8 cs)).stdout = utf8 ds ∧
      Longest (fun es => FitsLines head (utf8 es) ∧ FitsBytes maxBytes (utf8 es)) cs ds := by
  obtain ⟨hs, hpre, heq⟩ := exists_headed head cs
  have hwhole := longest_headed head (utf8 cs)
  rw [heq] at hwhole
  have hlines : Longest (fun es => FitsLines head (utf8 es)) cs hs :=
    ⟨hpre, hwhole.fits, fun es hes hfit =>
      utf8_prefix_utf8_iff.mp (hwhole.longest _ (utf8_prefix_utf8_iff.mpr hes) hfit)⟩
  have hboth : ∀ ds, Longest (fun es => FitsBytes maxBytes (utf8 es)) hs ds →
      Longest (fun es => FitsLines head (utf8 es) ∧ FitsBytes maxBytes (utf8 es)) cs ds :=
    fun ds hds => hlines.and hds fun es hes hfit => hfit.mono (utf8_prefix_utf8_iff.mpr hes)
  rcases apply_cases run head maxBytes (utf8 cs) with ⟨hfits, happly⟩ | ⟨n, hn, hlong, happly⟩
  · rw [heq] at hfits happly
    exact ⟨hs, by rw [happly], hboth hs (Longest.self hfits)⟩
  · rw [heq] at hlong happly
    obtain rfl : maxBytes = some n := hn
    have hcut := longest_truncateAt n hs
    have htake : (utf8 hs).take (charFloor (utf8 hs) n) = utf8 (truncateAt n hs) := by
      obtain ⟨rest, hrest⟩ := hcut.isPrefix
      have hutf8 : utf8 hs = utf8 (truncateAt n hs) ++ utf8 rest := by rw [← utf8_append, hrest]
      rw [charFloor_utf8 hlong]
      conv_lhs => rw [hutf8, List.take_left]
    refine ⟨truncateAt n hs, by rw [happly]; exact htake, hboth _ ?_⟩
    refine ⟨hcut.isPrefix, fun m hm => ?_, fun es hes hfit => hcut.longest es hes (hfit n rfl)⟩
    obtain rfl := Option.some.inj hm
    exact hcut.fits

end

end Shape

/-- **Truncation.** `Shape::apply` without jq leaves, of the longest prefix with no more lines than
`--head`, all, or at most `--max-bytes` bytes: these, or those before a character that goes past the
limit; with a note exactly if it left something out; and of a text, the longest that fits. A
denial's reason is cut to the longest text that fits, and what a result has of a stream, whatever
its bytes are, is the longest that fits, with a note behind it where that is not all. -/
theorem outputs_cut [Jaq] (run : JqProgram → List UInt8 → List UInt8 × Option String) :
    (∀ (head maxBytes : Option Nat) (bs : List UInt8),
      ∃ whole kept notes, Longest (Shape.FitsLines head) bs whole ∧
        Shape.apply run ⟨none, head, maxBytes⟩ bs = ⟨kept, notes, none⟩ ∧
        kept <+: whole ∧ Shape.FitsLines head kept ∧ Shape.FitsBytes maxBytes kept ∧
        (kept = whole ∨ ∃ n ∈ maxBytes, n < whole.length ∧
          (kept.length = n ∨ Shape.EndsInChar whole kept n)) ∧
        (notes = [] ↔ kept = whole) ∧
        ∀ cs, bs = utf8 cs → ∃ ds, kept = utf8 ds ∧ Longest (fun es =>
          Shape.FitsLines head (utf8 es) ∧ Shape.FitsBytes maxBytes (utf8 es)) cs ds) ∧
    (∀ s, ∃ kept, Transport.truncateReason s = some kept ∧ kept = truncateReason s ∧
      Longest (FitsIn MAX_REASON) s.toList kept.toList) ∧
    ∀ bytes stream, ∃ kept, Longest (FitsIn Mcp.MAX_OUTPUT_BYTES) (fromUtf8Lossy bytes) kept ∧
      Mcp.capped bytes stream = some (if kept = fromUtf8Lossy bytes then kept
        else Mcp.endLine kept ++ Mcp.cappedNote stream (utf8 kept).length bytes.length) ∧
      ∀ cs, bytes = utf8 cs → kept <+: cs := by
  refine ⟨fun head maxBytes bs => ?_, fun s => ?_, fun bytes stream => ?_⟩
  · have hwhole := Shape.longest_headed head bs
    have hutf8 : ∀ cs, bs = utf8 cs → ∃ ds, (Shape.apply run ⟨none, head, maxBytes⟩ bs).stdout =
        utf8 ds ∧ Longest (fun es => Shape.FitsLines head (utf8 es) ∧
          Shape.FitsBytes maxBytes (utf8 es)) cs ds := fun cs hcs => by
      rw [hcs]
      exact Shape.stdout_utf8 run head maxBytes cs
    rcases Shape.apply_cases run head maxBytes bs with ⟨hfits, happly⟩ | ⟨n, hn, hlong, happly⟩
    · rw [happly] at hutf8
      exact ⟨_, _, _, hwhole, happly, List.prefix_refl _, hwhole.fits, hfits, .inl rfl,
        iff_of_true rfl rfl, hutf8⟩
    · rw [happly] at hutf8
      have hpre := List.take_prefix (charFloor (Shape.headed head bs) n) (Shape.headed head bs)
      obtain ⟨hle, hend⟩ := Shape.length_take_charFloor hlong
      refine ⟨_, _, _, hwhole, happly, hpre, hwhole.fits.mono hpre, fun m hm => ?_,
        .inr ⟨n, hn, hlong, hend⟩, iff_of_false (List.cons_ne_nil _ _) fun heq => ?_, hutf8⟩
      · obtain rfl : maxBytes = some n := hn
        obtain rfl := Option.some.inj hm
        exact hle
      · rw [heq] at hle
        omega
  · have hlong := longest_truncateAt MAX_REASON s.toList
    rw [Transport.truncateReason, truncateReason]
    split_ifs with hbig
    · rw [reasonEnd_eq, truncate_truncateAt]
      refine ⟨_, rfl, rfl, ?_⟩
      rwa [String.toList_ofList]
    · refine ⟨s, rfl, rfl, Longest.self ?_⟩
      rw [FitsIn, length_utf8_toList]
      exact not_lt.mp hbig
  · have hlong := longest_truncateAt Mcp.MAX_OUTPUT_BYTES (fromUtf8Lossy bytes)
    refine ⟨_, hlong, ?_, fun cs hcs => ?_⟩
    · rw [Mcp.capped]
      show (if _ then _ else _) = _
      split_ifs with hbig hsame hsame
      · have hfits := hlong.fits
        rw [hsame, FitsIn] at hfits
        exact absurd hfits (not_le.mpr hbig)
      · rw [cappedCut_eq, Option.bind_eq_bind, Option.bind_some, truncate_truncateAt]
        rfl
      · rw [hsame]
        rfl
      · exact absurd (hlong.eq (Longest.self (not_lt.mp hbig))) hsame
    · rw [hcs, fromUtf8Lossy_utf8] at hlong ⊢
      exact hlong.isPrefix

end Wires
