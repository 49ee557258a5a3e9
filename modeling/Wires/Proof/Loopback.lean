import Wires.Impl.Loopback

/-!
# Which redirect ends a login

However the bytes of a connection come, what is read of it is the request they
begin with (`readRequest_eq_ok`), and only a `Content-Length` near `2^64` makes the
reading panic (`readRequest_eq_panics`). So a login takes a code from the first
connection that brings a redirect, and only with its own `state`
(`acceptCallback_eq_ok`).
-/

namespace Wires

namespace Loopback

/-! ## Reading a request -/

section

variable {s s' : Stream} {buf buf' bs body out : List UInt8} {fuel i n length : Nat}

theorem length_headEnd : HEAD_END.length = 4 := rfl

/-! What one turn of the loop does: it has the head, it gives up, or it goes on with more of the bytes. -/

theorem readHead_of_some (hfind : findSlice HEAD_END buf = some i) :
    readHead (fuel + 1) buf s = .ok (i, buf, s) := by
  rw [readHead, hfind]

theorem readHead_of_stuck (hnone : findSlice HEAD_END buf = none)
    (hstuck : MAX_REQUEST ≤ buf.length ∨ s.bytes = []) :
    ∃ why, readHead (fuel + 1) buf s = .error (.fails why) := by
  rw [readHead, hnone]
  simp only
  split_ifs with hfull
  · exact ⟨_, rfl⟩
  · have hb : s.bytes = [] := hstuck.resolve_left hfull
    rw [Stream.poll, if_pos hb]
    cases s.ends with
    | eof => exact ⟨_, rfl⟩
    | failed why => exact ⟨_, rfl⟩

theorem readHead_of_more (hnone : findSlice HEAD_END buf = none) (hroom : buf.length < MAX_REQUEST)
    (hb : s.bytes ≠ []) : ∃ more s₁, readHead (fuel + 1) buf s = readHead fuel (buf ++ more) s₁ ∧
      0 < more.length ∧ more.length ≤ 4096 ∧ buf ++ more ++ s₁.bytes = buf ++ s.bytes := by
  obtain ⟨n, sizes, hn, hle, hp⟩ := Stream.poll_of_ne_nil hb (by decide : 4096 ≠ 0)
  have hlen : (s.bytes.take n).length = min n s.bytes.length := List.length_take
  have hpos := List.length_pos_of_ne_nil hb
  refine ⟨s.bytes.take n, ⟨s.bytes.drop n, sizes, s.ends⟩, ?_, by omega, by omega, ?_⟩
  · rw [readHead, hnone]
    simp only
    rw [if_neg (by omega), hp]
    cases hbs : s.bytes.take n with
    | nil =>
      rw [hbs, List.length_nil] at hlen
      omega
    | cons c cs => rfl
  · rw [List.append_assoc, List.take_append_drop]

/-- The head that is found is the first there is, and nothing that was read is lost. -/
theorem of_readHead (h : readHead fuel buf s = .ok (i, buf', s')) :
    findSlice HEAD_END (buf ++ s.bytes) = some i ∧ buf' ++ s'.bytes = buf ++ s.bytes ∧
      i + 4 ≤ buf'.length ∧ buf'.length ≤ max buf.length (MAX_REQUEST + 4096) := by
  induction fuel generalizing buf s with
  | zero => cases h
  | succ fuel ih =>
    cases hfind : findSlice HEAD_END buf with
    | some j =>
      rw [readHead_of_some hfind] at h
      simp only [Except.ok.injEq, Prod.mk.injEq] at h
      obtain ⟨rfl, rfl, rfl⟩ := h
      have hle := length_le_of_findSlice hfind
      rw [length_headEnd] at hle
      exact ⟨findSlice_append hfind _, rfl, hle, le_max_left _ _⟩
    | none =>
      by_cases hstuck : MAX_REQUEST ≤ buf.length ∨ s.bytes = []
      · obtain ⟨why, hfails⟩ := @readHead_of_stuck s buf fuel hfind hstuck
        rw [hfails] at h
        cases h
      · push Not at hstuck
        obtain ⟨more, s₁, hturn, -, hshort, hbytes⟩ := readHead_of_more hfind hstuck.1 hstuck.2
        rw [hturn] at h
        obtain ⟨hfound, hsame, hlen, hbound⟩ := ih h
        rw [hbytes] at hfound hsame
        rw [List.length_append] at hbound
        exact ⟨hfound, hsame, hlen, by omega⟩

theorem readHead_ne_panics : readHead fuel buf s ≠ .error .panics := by
  induction fuel generalizing buf s with
  | zero => simp [readHead]
  | succ fuel ih =>
    cases hfind : findSlice HEAD_END buf with
    | some j => simp [readHead_of_some hfind]
    | none =>
      by_cases hstuck : MAX_REQUEST ≤ buf.length ∨ s.bytes = []
      · obtain ⟨why, hfails⟩ := @readHead_of_stuck s buf fuel hfind hstuck
        simp [hfails]
      · push Not at hstuck
        obtain ⟨more, s₁, hturn, -⟩ := @readHead_of_more s buf fuel hfind hstuck.1 hstuck.2
        rw [hturn]
        exact ih

/-- A head that ends in time is found, whatever reads it comes in. -/
theorem exists_readHead (hfind : findSlice HEAD_END (buf ++ s.bytes) = some i)
    (hi : i + 4 ≤ MAX_REQUEST) (hfuel : MAX_REQUEST + 1 ≤ buf.length + fuel) (hpos : 0 < fuel) :
    ∃ buf' s', readHead fuel buf s = .ok (i, buf', s') := by
  induction fuel generalizing buf s with
  | zero => omega
  | succ fuel ih =>
    cases hbuf : findSlice HEAD_END buf with
    | some j =>
      have hj := findSlice_append hbuf s.bytes
      rw [hfind] at hj
      obtain rfl := Option.some.inj hj
      exact ⟨buf, s, readHead_of_some hbuf⟩
    | none =>
      have hshort : buf.length < i + 4 := by
        by_contra hlong
        have hle : i + HEAD_END.length ≤ buf.length := by
          rw [length_headEnd]
          omega
        rw [findSlice_of_append hfind hle (by decide)] at hbuf
        cases hbuf
      have hb : s.bytes ≠ [] := by
        intro hnil
        rw [hnil, List.append_nil, hbuf] at hfind
        cases hfind
      obtain ⟨more, s₁, hturn, hmore, -, hbytes⟩ :=
        @readHead_of_more s buf fuel hbuf (by omega) hb
      rw [hturn]
      apply ih
      · rw [hbytes]
        exact hfind
      · rw [List.length_append]
        omega
      · omega

theorem of_readHead_nil (h : readHead (MAX_REQUEST + 1) [] s = .ok (i, buf, s')) :
    findSlice HEAD_END s.bytes = some i ∧ buf ++ s'.bytes = s.bytes ∧ i + 4 ≤ buf.length ∧
      buf.length ≤ MAX_REQUEST + 4096 ∧ buf.take i = s.bytes.take i := by
  obtain ⟨hfind, hsame, hlen, hbound⟩ := of_readHead h
  rw [List.nil_append] at hfind hsame
  rw [List.length_nil, Nat.zero_max] at hbound
  refine ⟨hfind, hsame, hlen, hbound, ?_⟩
  rw [← hsame, List.take_append_of_le_length (by omega)]

theorem exists_readHead_nil (hfind : findSlice HEAD_END s.bytes = some i) (hi : i + 4 ≤ MAX_REQUEST) :
    ∃ buf s', readHead (MAX_REQUEST + 1) [] s = .ok (i, buf, s') :=
  exists_readHead (by rw [List.nil_append]; exact hfind) hi (Nat.le_add_left _ _) (Nat.succ_pos _)

/-- What a body comes to: what is there, and what is still to come. -/
theorem readBody_eq_ok : readBody length body s = .ok out ↔ length - body.length < 2 ^ 63 ∧
    length ≤ body.length + s.bytes.length ∧ out = (body ++ s.bytes).take length := by
  rw [readBody]
  split_ifs with hmore hbig
  · exact iff_of_false (by simp) (by omega)
  · obtain ⟨sizes, hread⟩ := Stream.readExact_eq s (length - body.length)
    rw [hread]
    by_cases henough : length - body.length ≤ s.bytes.length
    · have htake : (body ++ s.bytes).take length =
          body ++ s.bytes.take (length - body.length) := by
        rw [List.take_append, List.take_of_length_le (by omega)]
      rw [if_pos henough]
      simp only [Except.ok.injEq]
      rw [htake]
      constructor
      · intro h
        exact ⟨by omega, by omega, h.symm⟩
      · rintro ⟨-, -, h⟩
        exact h.symm
    · rw [if_neg henough]
      refine iff_of_false ?_ (by omega)
      cases s.ends with
      | eof => simp [Ending.short]
      | failed why => simp [Ending.short]
  · have htake : (body ++ s.bytes).take length = body.take length :=
      List.take_append_of_le_length (by omega)
    rw [htake]
    simp only [Except.ok.injEq]
    constructor
    · intro h
      exact ⟨by omega, by omega, h.symm⟩
    · rintro ⟨-, -, h⟩
      exact h.symm

theorem readBody_eq_panics :
    readBody length body s = .error .panics ↔ 2 ^ 63 ≤ length - body.length := by
  rw [readBody]
  split_ifs with hmore hbig
  · exact iff_of_true rfl hbig
  · refine iff_of_false ?_ hbig
    obtain ⟨sizes, hread⟩ := Stream.readExact_eq s (length - body.length)
    rw [hread]
    split_ifs
    · simp
    · cases s.ends with
      | eof => simp [Ending.short]
      | failed why => simp [Ending.short]
  · exact iff_of_false (by simp) (by omega)

theorem parseUsize_lt {cs : List Char} {n : Nat} (h : parseUsize cs = some n) : n < 2 ^ 64 := by
  unfold parseUsize at h
  dsimp only at h
  split_ifs at h with hgood
  obtain rfl := Option.some.inj h
  exact hgood.2.2

/-- A length that is given is a `usize`. -/
theorem contentLength_lt {lines : List (List Char)} {n length : Nat} (hn : n < 2 ^ 64)
    (h : contentLength n lines = .ok length) : length < 2 ^ 64 := by
  induction lines generalizing n with
  | nil =>
    obtain rfl := Except.ok.inj h
    exact hn
  | cons line lines ih =>
    rw [contentLength] at h
    split at h
    · split_ifs at h with hname
      · split at h
        · rename_i m hm
          exact ih (parseUsize_lt hm) h
        · cases h
      · exact ih hn h
    · exact ih hn h

theorem contentLength_ne_panics {lines : List (List Char)} {n : Nat} :
    contentLength n lines ≠ .error .panics := by
  induction lines generalizing n with
  | nil => simp [contentLength]
  | cons line lines ih =>
    rw [contentLength]
    split
    · split_ifs
      · split
        · exact ih
        · simp
      · exact ih
    · exact ih

theorem parseHead_ne_panics {head : List UInt8} : parseHead head ≠ .error .panics := by
  intro h
  unfold parseHead at h
  rcases bind_eq_error.mp h with h | ⟨text, -, h⟩
  · cases (orError_eq_error.mp h).2
  rcases bind_eq_error.mp h with h | ⟨⟨method, rest⟩, -, h⟩
  · cases (orError_eq_error.mp h).2
  rcases bind_eq_error.mp h with h | ⟨length, -, h⟩
  · exact contentLength_ne_panics h
  · cases h

theorem parseHead_lt {head : List UInt8} {method target : String} {length : Nat}
    (h : parseHead head = .ok (method, target, length)) : length < 2 ^ 64 := by
  unfold parseHead at h
  obtain ⟨_, -, h⟩ := bind_eq_ok.mp h
  obtain ⟨⟨_, _⟩, -, h⟩ := bind_eq_ok.mp h
  obtain ⟨n, hn, h⟩ := bind_eq_ok.mp h
  obtain ⟨-, -, rfl⟩ : _ ∧ _ ∧ n = length := by simpa using h
  exact contentLength_lt (by decide) hn

end

/-- The request that bytes begin with, its head and its body within `MAX_REQUEST`. -/
def Begins (bytes : List UInt8) (r : HttpRequest) : Prop :=
  ∃ i length, findSlice HEAD_END bytes = some i ∧
    parseHead (bytes.take i) = .ok (r.method, r.target, length) ∧ i + 4 + length ≤ MAX_REQUEST ∧
      i + 4 + length ≤ bytes.length ∧ r.body = (bytes.drop (i + 4)).take length

/-- **What is read of a connection.** `read_request` gives a request exactly where the bytes that are
sent begin with it, and with no more than `MAX_REQUEST` of them, whatever reads they come in and
however the connection ends. -/
theorem readRequest_eq_ok (s : Stream) (r : HttpRequest) :
    readRequest s = .ok r ↔ Begins s.bytes r := by
  have hmax : MAX_REQUEST = 65536 := rfl
  constructor
  · intro h
    unfold readRequest at h
    obtain ⟨⟨i, buf, s'⟩, hhead, h⟩ := bind_eq_ok.mp h
    obtain ⟨⟨method, target, length⟩, hparse, h⟩ := bind_eq_ok.mp h
    obtain ⟨_, hsize, h⟩ := bind_eq_ok.mp h
    obtain ⟨body, hbody, h⟩ := bind_eq_ok.mp h
    obtain rfl := pure_eq_ok.mp h
    obtain ⟨hfind, hsame, hlen, hbound, htake⟩ := of_readHead_nil hhead
    obtain ⟨hsmall, henough, rfl⟩ := readBody_eq_ok.mp hbody
    have hdrop : (buf.drop (i + 4)).length = buf.length - (i + 4) := List.length_drop
    have hsize' : (i + 4 + length) % 2 ^ 64 ≤ MAX_REQUEST := ensure_eq_ok.mp hsize
    rw [Nat.mod_eq_of_lt (by omega)] at hsize'
    refine ⟨i, length, hfind, htake ▸ hparse, hsize', ?_, ?_⟩
    · rw [← hsame, List.length_append]
      omega
    · show _ = (s.bytes.drop (i + 4)).take length
      rw [← hsame, List.drop_append_of_le_length hlen]
  · rintro ⟨i, length, hfind, hparse, hsize, henough, hbody⟩
    obtain ⟨buf, s', hhead⟩ := exists_readHead_nil hfind (by omega)
    obtain ⟨-, hsame, hlen, -, htake⟩ := of_readHead_nil hhead
    have hread : readBody length (buf.drop (i + 4)) s' = .ok r.body := by
      have hcount : buf.length + s'.bytes.length = s.bytes.length := by
        rw [← hsame, List.length_append]
      refine readBody_eq_ok.mpr ⟨by omega, ?_, ?_⟩
      · rw [List.length_drop]
        omega
      · rw [hbody, ← hsame, List.drop_append_of_le_length hlen]
    have hensure : (i + 4 + length) % 2 ^ 64 ≤ MAX_REQUEST := by
      rw [Nat.mod_eq_of_lt (by omega)]
      exact hsize
    unfold readRequest
    refine bind_eq_ok.mpr ⟨(i, buf, s'), hhead, bind_eq_ok.mpr ⟨(r.method, r.target, length), ?_, ?_⟩⟩
    · rw [htake]
      exact hparse
    · exact bind_eq_ok.mpr ⟨(), ensure_eq_ok.mpr hensure, bind_eq_ok.mpr ⟨r.body, hread, rfl⟩⟩

/-- A `Content-Length` that makes the sum wrap. -/
def Overflows (bytes : List UInt8) : Prop :=
  ∃ i method target length, findSlice HEAD_END bytes = some i ∧
    parseHead (bytes.take i) = .ok (method, target, length) ∧ 2 ^ 64 ≤ i + 4 + length

/-- **Where reading a request panics.** Of a head that ends in time, only a `Content-Length` does it, one
with which the sum that is held against `MAX_REQUEST` wraps, and every such length does. -/
theorem readRequest_eq_panics (s : Stream)
    (htime : ∀ i, findSlice HEAD_END s.bytes = some i → i + 4 ≤ MAX_REQUEST) :
    readRequest s = .error .panics ↔ Overflows s.bytes := by
  have hmax : MAX_REQUEST = 65536 := rfl
  constructor
  · intro h
    unfold readRequest at h
    rcases bind_eq_error.mp h with h | ⟨⟨i, buf, s'⟩, hhead, h⟩
    · exact absurd h readHead_ne_panics
    rcases bind_eq_error.mp h with h | ⟨⟨method, target, length⟩, hparse, h⟩
    · exact absurd h parseHead_ne_panics
    rcases bind_eq_error.mp h with h | ⟨_, hsize, h⟩
    · cases (ensure_eq_error.mp h).2
    rcases bind_eq_error.mp h with h | ⟨_, -, h⟩
    · obtain ⟨hfind, -, -, -, htake⟩ := of_readHead_nil hhead
      have hbig := readBody_eq_panics.mp h
      have hsize' : (i + 4 + length) % 2 ^ 64 ≤ MAX_REQUEST := ensure_eq_ok.mp hsize
      refine ⟨i, method, target, length, hfind, htake ▸ hparse, ?_⟩
      -- A sum that did not wrap is small, and so is the length.
      by_contra hwrap
      rw [Nat.mod_eq_of_lt (by omega)] at hsize'
      omega
    · cases h
  · rintro ⟨i, method, target, length, hfind, hparse, hwrap⟩
    have hi := htime i hfind
    obtain ⟨buf, s', hhead⟩ := exists_readHead_nil hfind hi
    obtain ⟨-, -, -, hbound, htake⟩ := of_readHead_nil hhead
    have hlt := parseHead_lt hparse
    have hensure : (i + 4 + length) % 2 ^ 64 ≤ MAX_REQUEST := by omega
    have hread : readBody length (buf.drop (i + 4)) s' = .error .panics := by
      apply readBody_eq_panics.mpr
      rw [List.length_drop]
      omega
    unfold readRequest
    refine bind_eq_error.mpr (.inr ⟨(i, buf, s'), hhead,
      bind_eq_error.mpr (.inr ⟨(method, target, length), ?_, ?_⟩)⟩)
    · rw [htake]
      exact hparse
    · exact bind_eq_error.mpr (.inr ⟨(), ensure_eq_ok.mpr hensure, bind_eq_error.mpr (.inl hread)⟩)

/-- A request whose length is the largest `usize`. -/
def sampleHuge : List UInt8 :=
  "GET / HTTP/1.1\r\nContent-Length:18446744073709551615\r\n\r\n".toList.map fun c =>
    c.toNat.toUInt8

theorem readRequest_sampleHuge : readRequest ⟨sampleHuge, [], .eof⟩ = .error .panics := by
  have hfind : findSlice HEAD_END sampleHuge = some 51 := by decide +kernel
  have hparse : parseHead (sampleHuge.take 51) = .ok ("GET", "/", 2 ^ 64 - 1) := by decide +kernel
  refine (readRequest_eq_panics ⟨sampleHuge, [], .eof⟩ ?_).mpr
    ⟨51, "GET", "/", 2 ^ 64 - 1, hfind, hparse, by decide⟩
  intro i hi
  obtain rfl := Option.some.inj (hfind.symm.trans hi)
  decide

/-! ## The redirect -/

section

variable [Web] [Origin] [QueryPairs] {state code : String} {r : HttpRequest}

/-- A request that is the redirect of some login. -/
def IsRedirect (r : HttpRequest) (url : Web.Url) : Prop :=
  Web.parse ("http://127.0.0.1" ++ r.target) = .ok url ∧ r.method = "GET" ∧
    Origin.path url = "/callback"

theorem answerCallback_eq_none : answerCallback state r = none ↔ ∀ url, ¬IsRedirect r url := by
  rw [answerCallback]
  cases hparse : Web.parse ("http://127.0.0.1" ++ r.target) with
  | error e =>
    refine iff_of_true rfl ?_
    rintro url ⟨hurl, -⟩
    rw [hparse] at hurl
    cases hurl
  | ok url =>
    simp only
    split_ifs with hother
    · refine iff_of_true rfl ?_
      rintro url' ⟨hurl, hget, hpath⟩
      obtain rfl := Except.ok.inj (hparse.symm.trans hurl)
      exact hother.elim (fun h => h hget) fun h => h hpath
    · push Not at hother
      exact iff_of_false (by simp) fun h => h url ⟨hparse, hother.1, hother.2⟩

theorem answerCallback_eq_some {result : Except Fault String} :
    answerCallback state r = some result ↔
      ∃ url, IsRedirect r url ∧ readRedirect state url = result := by
  constructor
  · intro h
    by_cases hex : ∃ url, IsRedirect r url
    · obtain ⟨url, hparse, hget, hpath⟩ := hex
      refine ⟨url, ⟨hparse, hget, hpath⟩, ?_⟩
      rw [answerCallback, hparse] at h
      simp only at h
      rw [if_neg (by simp [hget, hpath])] at h
      exact Option.some.inj h
    · push Not at hex
      rw [answerCallback_eq_none.mpr hex] at h
      cases h
  · rintro ⟨url, ⟨hparse, hget, hpath⟩, rfl⟩
    rw [answerCallback, hparse]
    simp only
    rw [if_neg (by simp [hget, hpath])]

omit [Origin] in
theorem readRedirect_eq_ok {url : Web.Url} : readRedirect state url = .ok code ↔
    param url "error" = none ∧ param url "state" = some state ∧ param url "code" = some code := by
  rw [readRedirect]
  cases param url "error" with
  | some error => simp
  | none => simp only [bind_eq_ok, ensure_eq_ok, orError_eq_ok, exists_const, true_and]

/-- A connection that does not end the wait: it brings no request, or one that is no redirect. -/
def Passed (c : Stream) : Prop :=
  readRequest c ≠ .error .panics ∧ ∀ r url, Begins c.bytes r → ¬IsRedirect r url

theorem acceptCallback_cons {c : Stream} {cs : List Stream} (hc : Passed c) :
    acceptCallback state (c :: cs) = acceptCallback state cs := by
  rw [acceptCallback]
  cases hread : readRequest c with
  | error e =>
    cases e with
    | fails why => rfl
    | panics => exact absurd hread hc.1
  | ok r =>
    have hnone : answerCallback state r = none :=
      answerCallback_eq_none.mpr fun url => hc.2 r url ((readRequest_eq_ok c r).mp hread)
    simp only
    rw [hnone]

/-- **Whose code a login takes.** The wait ends with a code exactly where, after connections that
bring nothing or something else, however many, there comes the redirect with the `state` of this login,
a code, and no error. -/
theorem acceptCallback_eq_ok (conns : List Stream) (state code : String) :
    acceptCallback state conns = some (.ok code) ↔ ∃ before c after r url,
      conns = before ++ c :: after ∧ (∀ b ∈ before, Passed b) ∧ Begins c.bytes r ∧ IsRedirect r url ∧
        param url "error" = none ∧ param url "state" = some state ∧ param url "code" = some code := by
  constructor
  · intro h
    induction conns with
    | nil => cases h
    | cons c cs ih =>
      by_cases hc : Passed c
      · rw [acceptCallback_cons hc] at h
        obtain ⟨before, c', after, r, url, rfl, hbefore, hrest⟩ := ih h
        exact ⟨c :: before, c', after, r, url, rfl, List.forall_mem_cons.mpr ⟨hc, hbefore⟩, hrest⟩
      · rw [acceptCallback] at h
        cases hread : readRequest c with
        | error e =>
          rw [hread] at h
          cases e with
          | panics => simp at h
          | fails why =>
            -- No request is there, so this connection was passed over.
            refine absurd ⟨by simp [hread], ?_⟩ hc
            intro r url hbegins
            rw [(readRequest_eq_ok c r).mpr hbegins] at hread
            cases hread
        | ok r =>
          rw [hread] at h
          have hbegins := (readRequest_eq_ok c r).mp hread
          cases hanswer : answerCallback state r with
          | none =>
            refine absurd ⟨by simp [hread], ?_⟩ hc
            intro r' url hbegins'
            obtain rfl := Except.ok.inj (hread.symm.trans ((readRequest_eq_ok c r').mpr hbegins'))
            exact answerCallback_eq_none.mp hanswer url
          | some result =>
            simp only [hanswer, Option.some.injEq] at h
            subst h
            obtain ⟨url, hredirect, hcode⟩ := answerCallback_eq_some.mp hanswer
            exact ⟨[], c, cs, r, url, rfl, by simp, hbegins, hredirect, readRedirect_eq_ok.mp hcode⟩
  · rintro ⟨before, c, after, r, url, rfl, hbefore, hbegins, hredirect, hparams⟩
    induction before with
    | nil =>
      have hanswer : answerCallback state r = some (.ok code) :=
        answerCallback_eq_some.mpr ⟨url, hredirect, readRedirect_eq_ok.mpr hparams⟩
      rw [List.nil_append, acceptCallback, (readRequest_eq_ok c r).mpr hbegins]
      simp only
      rw [hanswer]
    | cons b before ih =>
      obtain ⟨hb, hbefore⟩ := List.forall_mem_cons.mp hbefore
      rw [List.cons_append, acceptCallback_cons hb]
      exact ih hbefore

end

end Loopback

end Wires
