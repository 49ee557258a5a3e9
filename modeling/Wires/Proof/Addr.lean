import Wires.Framework.Digits
import Wires.Framework.Lines
import Wires.Impl.Addr
import Wires.Proof.RateLimit

/-!
# Which addresses are public, and which are one

`is_public_ip` takes the addresses of no reserved block (`isPublic_iff`). Two
addresses have one key where they are one IPv4 address, whichever way written,
or of one `/64` (`key_eq_iff`). So without a proxy a request is counted against
its peer's, whatever its headers say (`clientAddr_eq_iff`), and a run counts a
subscriber's requests and no others (`subscribers_limited`).
-/

namespace Wires

namespace IpAddr

/-! ## Public addresses -/

/-- The IPv4 blocks that are not of the public internet. -/
def reservedV4 : List (Block 32) :=
  [⟨0x7f000000, 8⟩, ⟨0x0a000000, 8⟩, ⟨0xac100000, 12⟩, ⟨0xc0a80000, 16⟩, ⟨0xa9fe0000, 16⟩,
    ⟨0xffffffff, 32⟩, ⟨0xc0000200, 24⟩, ⟨0xc6336400, 24⟩, ⟨0xcb007100, 24⟩, ⟨0xe0000000, 4⟩, ⟨0, 8⟩,
    ⟨0x64400000, 10⟩]

/-- The IPv6 blocks that are not. -/
def reservedV6 : List (Block 128) :=
  [⟨1, 128⟩, ⟨0, 128⟩, ⟨0xff000000000000000000000000000000, 8⟩,
    ⟨0xfc000000000000000000000000000000, 7⟩, ⟨0xfe800000000000000000000000000000, 10⟩]

/-- The IPv6 addresses that stand for IPv4 ones. -/
def mappedV4 : Block 128 := ⟨0xffff00000000, 96⟩

/-- An address of the public internet: of no reserved block, whichever way it is written. -/
def Public : IpAddr → Prop
  | .v4 a => ∀ b ∈ reservedV4, ¬b.Has a
  | .v6 a => if mappedV4.Has a then ∀ b ∈ reservedV4, ¬b.Has (a.setWidth 32)
      else ∀ b ∈ reservedV6, ¬b.Has a

theorem toNat_octet (a : BitVec 32) (i : Nat) :
    (octet a i).toNat = a.toNat / 2 ^ (24 - 8 * i) % 256 := by
  rw [octet, BitVec.extractLsb'_toNat, Nat.shiftRight_eq_div_pow]

theorem toNat_segment (a : BitVec 128) (i : Nat) :
    (segment a i).toNat = a.toNat / 2 ^ (112 - 16 * i) % 65536 := by
  rw [segment, BitVec.extractLsb'_toNat, Nat.shiftRight_eq_div_pow]

theorem and_c0_eq_iff (o : BitVec 8) : o &&& 0xc0 = 64 ↔ o.toNat / 64 = 1 := by
  have h := @Block.and_mask_eq_iff 8 o 64 6
  rw [Block.ushiftRight_eq_iff] at h
  simpa using h

theorem isLoopback_iff (a : BitVec 32) : isLoopback a = true ↔ (Block.mk 0x7f000000 8).Has a := by
  have hlt := a.isLt
  simp only [isLoopback, Block.has_iff, decide_eq_true_eq, ← BitVec.toNat_inj, toNat_octet,
    BitVec.reduceToNat]
  omega

theorem isPrivate_iff (a : BitVec 32) : isPrivate a = true ↔ (Block.mk 0x0a000000 8).Has a ∨
    (Block.mk 0xac100000 12).Has a ∨ (Block.mk 0xc0a80000 16).Has a := by
  have hlt := a.isLt
  simp only [isPrivate, Block.has_iff, Bool.or_eq_true, Bool.and_eq_true, decide_eq_true_eq,
    BitVec.le_def, ← BitVec.toNat_inj, toNat_octet, BitVec.reduceToNat]
  omega

theorem isLinkLocal_iff (a : BitVec 32) : isLinkLocal a = true ↔ (Block.mk 0xa9fe0000 16).Has a := by
  have hlt := a.isLt
  simp only [isLinkLocal, Block.has_iff, Bool.and_eq_true, decide_eq_true_eq, ← BitVec.toNat_inj,
    toNat_octet, BitVec.reduceToNat]
  omega

theorem isBroadcast_iff (a : BitVec 32) : isBroadcast a = true ↔ (Block.mk 0xffffffff 32).Has a := by
  simp only [isBroadcast, Block.has_iff, decide_eq_true_eq, ← BitVec.toNat_inj, BitVec.reduceToNat]
  omega

theorem isDocumentation_iff (a : BitVec 32) : isDocumentation a = true ↔
    (Block.mk 0xc0000200 24).Has a ∨ (Block.mk 0xc6336400 24).Has a ∨
      (Block.mk 0xcb007100 24).Has a := by
  have hlt := a.isLt
  simp only [isDocumentation, Block.has_iff, Bool.or_eq_true, Bool.and_eq_true, decide_eq_true_eq,
    ← BitVec.toNat_inj, toNat_octet, BitVec.reduceToNat]
  omega

theorem isMulticast_iff (a : BitVec 32) : isMulticast a = true ↔ (Block.mk 0xe0000000 4).Has a := by
  have hlt := a.isLt
  simp only [isMulticast, Block.has_iff, Bool.and_eq_true, decide_eq_true_eq, BitVec.le_def,
    toNat_octet, BitVec.reduceToNat]
  omega

/-- The first octet is 0, also of `0.0.0.0`. -/
theorem unspecified_iff (a : BitVec 32) : (a = 0 ∨ octet a 0 = 0) ↔ (Block.mk 0 8).Has a := by
  have hlt := a.isLt
  simp only [Block.has_iff, ← BitVec.toNat_inj, toNat_octet, BitVec.reduceToNat]
  omega

theorem shared_iff (a : BitVec 32) : (octet a 0 = 100 ∧ octet a 1 &&& 0xc0 = 64) ↔
    (Block.mk 0x64400000 10).Has a := by
  have hlt := a.isLt
  rw [and_c0_eq_iff]
  simp only [Block.has_iff, ← BitVec.toNat_inj, toNat_octet, BitVec.reduceToNat]
  omega

theorem isPublicV4_iff (a : BitVec 32) : isPublicV4 a = true ↔ ∀ b ∈ reservedV4, ¬b.Has a := by
  have htests : isPublicV4 a = true ↔ ¬(isLoopback a = true ∨ isPrivate a = true ∨
      isLinkLocal a = true ∨ isBroadcast a = true ∨ isDocumentation a = true ∨
      isMulticast a = true ∨ (a = 0 ∨ octet a 0 = 0) ∨
      (octet a 0 = 100 ∧ octet a 1 &&& 0xc0 = 64)) := by
    rw [isPublicV4, Bool.not_eq_true', ← Bool.not_eq_true, not_iff_not]
    simp only [Bool.or_eq_true, Bool.and_eq_true, decide_eq_true_eq]
    generalize (octet a 0 = 100 ∧ octet a 1 &&& 0xc0 = 64) = shared
    simp only [or_assoc, or_left_comm]
  rw [htests, isLoopback_iff, isPrivate_iff, isLinkLocal_iff, isBroadcast_iff, isDocumentation_iff,
    isMulticast_iff, unspecified_iff, shared_iff]
  simp only [reservedV4, List.forall_mem_cons, List.not_mem_nil, false_imp_iff, implies_true,
    and_true, not_or, and_assoc]

theorem toIpv4Mapped_eq (a : BitVec 128) :
    toIpv4Mapped a = if mappedV4.Has a then some (a.setWidth 32) else none := by
  have hmapped : a.extractLsb' 32 96 = 0xffff ↔ mappedV4.Has a := by
    have hlt := a.isLt
    simp only [mappedV4, Block.has_iff, ← BitVec.toNat_inj, BitVec.extractLsb'_toNat,
      Nat.shiftRight_eq_div_pow, BitVec.reduceToNat]
    omega
  have hlow : a.extractLsb' 0 32 = a.setWidth 32 := by
    apply BitVec.eq_of_toNat_eq
    simp
  rw [toIpv4Mapped, hlow]
  simp only [hmapped]

/-- A test of the first segment under a mask. -/
theorem segment_mask_iff (a : BitVec 128) {net : BitVec 16} {len : Nat} (h : len ≤ 16)
    (hnet : net &&& (BitVec.allOnes 16 <<< (16 - len)) = net) :
    segment a 0 &&& (BitVec.allOnes 16 <<< (16 - len)) = net ↔
      (Block.mk (net.setWidth 128 <<< 112) len).Has a := by
  have hlt := a.isLt
  have hmask := @Block.and_mask_eq_iff 16 (segment a 0) net (16 - len)
  rw [hnet] at hmask
  rw [hmask, Block.ushiftRight_eq_iff, Block.has_iff, toNat_segment]
  have hnet' : (net.setWidth 128 <<< 112).toNat = net.toNat * 2 ^ 112 := by
    have hnet'' := net.isLt
    rw [BitVec.toNat_shiftLeft, BitVec.toNat_setWidth, Nat.shiftLeft_eq,
      Nat.mod_eq_of_lt (Nat.lt_of_lt_of_le hnet'' (by decide)), Nat.mod_eq_of_lt (by omega)]
  have hpow : 2 ^ (128 - len) = 2 ^ 112 * 2 ^ (16 - len) := by
    rw [← Nat.pow_add, show 128 - len = 112 + (16 - len) by omega]
  have hhigh : a.toNat / 2 ^ (112 - 16 * 0) % 65536 = a.toNat / 2 ^ 112 := by omega
  show _ ↔ a.toNat / 2 ^ (128 - len) = (net.setWidth 128 <<< 112).toNat / 2 ^ (128 - len)
  rw [hhigh, hnet', hpow, Nat.mul_comm net.toNat, ← Nat.div_div_eq_div_mul,
    Nat.mul_div_mul_left _ _ (by decide)]

theorem isPublic_iff (ip : IpAddr) : ip.isPublic = true ↔ ip.Public := by
  cases ip with
  | v4 a => exact isPublicV4_iff a
  | v6 a =>
    have hmulticast : segment a 0 &&& 0xff00 = 0xff00 ↔
        (Block.mk 0xff000000000000000000000000000000 8).Has a :=
      @segment_mask_iff a 0xff00 8 (by decide) (by decide)
    have hlocal : segment a 0 &&& 0xfe00 = 0xfc00 ↔
        (Block.mk 0xfc000000000000000000000000000000 7).Has a :=
      @segment_mask_iff a 0xfc00 7 (by decide) (by decide)
    have hlink : segment a 0 &&& 0xffc0 = 0xfe80 ↔
        (Block.mk 0xfe800000000000000000000000000000 10).Has a :=
      @segment_mask_iff a 0xfe80 10 (by decide) (by decide)
    have hone : ∀ b : BitVec 128, a = b ↔ (Block.mk b 128).Has a := by
      intro b
      rw [Block.has_iff, ← BitVec.toNat_inj]
      simp
    rw [isPublic, toIpv4Mapped_eq, Public]
    by_cases hm : mappedV4.Has a
    · rw [if_pos hm, if_pos hm]
      exact isPublicV4_iff _
    · rw [if_neg hm, if_neg hm]
      simp only [Bool.not_eq_true', Bool.or_eq_false_iff, decide_eq_false_iff_not, hmulticast, hlocal,
        hlink, reservedV6, List.forall_mem_cons, List.not_mem_nil, false_imp_iff, implies_true,
        and_true, and_assoc, hone 1, hone 0]

/-! ## Keys -/

/-- Who holds an address: one IPv4 address, or a whole `/64`. -/
def subscriber : IpAddr → BitVec 32 ⊕ BitVec 64
  | .v4 a => .inl a
  | .v6 a => if mappedV4.Has a then .inl (a.setWidth 32) else .inr (a.extractLsb' 64 64)

theorem dot_notMem (n : Nat) : '.' ∉ Nat.toDigits 10 n :=
  notMem_toDigits (by decide) (by decide) (by decide) n

theorem colon_notMem (n : Nat) : ':' ∉ Nat.toDigits 16 n :=
  notMem_toDigits (by decide) (by decide) (by decide) n

theorem dotted_injective : Function.Injective dotted := by
  intro a b h
  have hinj := toDigits_injective (b := 10) (by decide) (by decide)
  obtain ⟨h0, h⟩ := append_sep_inj (dot_notMem _) (dot_notMem _) h
  obtain ⟨h1, h⟩ := append_sep_inj (dot_notMem _) (dot_notMem _) h
  obtain ⟨h2, h3⟩ := append_sep_inj (dot_notMem _) (dot_notMem _) h
  have h0 := hinj h0
  have h1 := hinj h1
  have h2 := hinj h2
  have h3 := hinj h3
  have ha := a.isLt
  have hb := b.isLt
  simp only [toNat_octet] at h0 h1 h2 h3
  apply BitVec.eq_of_toNat_eq
  omega

theorem subnet_eq_iff (a b : BitVec 128) :
    subnet a = subnet b ↔ a.extractLsb' 64 64 = b.extractLsb' 64 64 := by
  have ha := a.isLt
  have hb := b.isLt
  constructor
  · intro h
    have hinj := toDigits_injective (b := 16) (by decide) (by decide)
    obtain ⟨h0, h⟩ := append_sep_inj (colon_notMem _) (colon_notMem _) h
    obtain ⟨h1, h⟩ := append_sep_inj (colon_notMem _) (colon_notMem _) h
    obtain ⟨h2, h⟩ := append_sep_inj (colon_notMem _) (colon_notMem _) h
    obtain ⟨h3, -⟩ := append_sep_inj (colon_notMem _) (colon_notMem _) h
    have h0 := hinj h0
    have h1 := hinj h1
    have h2 := hinj h2
    have h3 := hinj h3
    simp only [toNat_segment] at h0 h1 h2 h3
    apply BitVec.eq_of_toNat_eq
    rw [BitVec.extractLsb'_toNat, BitVec.extractLsb'_toNat, Nat.shiftRight_eq_div_pow,
      Nat.shiftRight_eq_div_pow]
    omega
  · intro h
    have hsegment : ∀ i < 4, segment a i = segment b i := by
      intro i hi
      have hhigh := congrArg BitVec.toNat h
      rw [BitVec.extractLsb'_toNat, BitVec.extractLsb'_toNat, Nat.shiftRight_eq_div_pow,
        Nat.shiftRight_eq_div_pow] at hhigh
      apply BitVec.eq_of_toNat_eq
      rw [toNat_segment, toNat_segment]
      have hcases : i = 0 ∨ i = 1 ∨ i = 2 ∨ i = 3 := by omega
      rcases hcases with rfl | rfl | rfl | rfl
      · omega
      · omega
      · omega
      · omega
    simp only [subnet, hsegment 0 (by decide), hsegment 1 (by decide), hsegment 2 (by decide),
      hsegment 3 (by decide)]

/-- An IPv4 address has no colon, and a `/64` has. -/
theorem dotted_ne_subnet (a : BitVec 32) (b : BitVec 128) : dotted a ≠ subnet b := by
  intro h
  have hcolon : ':' ∈ dotted a := by
    rw [h, subnet]
    simp
  have hdigits : ∀ n, ':' ∉ Nat.toDigits 10 n :=
    notMem_toDigits (by decide) (by decide) (by decide)
  simp [dotted, hdigits] at hcolon

/-- What the key of an address is. -/
theorem key_cases (ip : IpAddr) :
    (∃ a, ip.subscriber = .inl a ∧ ip.key = String.ofList (dotted a)) ∨
      ∃ a : BitVec 128, ip.subscriber = .inr (a.extractLsb' 64 64) ∧
        ip.key = String.ofList (subnet a) := by
  cases ip with
  | v4 a => exact .inl ⟨a, rfl, rfl⟩
  | v6 a =>
    rw [subscriber, key, toIpv4Mapped_eq]
    by_cases hm : mappedV4.Has a
    · rw [if_pos hm, if_pos hm]
      exact .inl ⟨_, rfl, rfl⟩
    · rw [if_neg hm, if_neg hm]
      exact .inr ⟨a, rfl, rfl⟩

/-- Two addresses are counted as one exactly where they are one subscriber's. -/
theorem key_eq_iff (a b : IpAddr) : a.key = b.key ↔ a.subscriber = b.subscriber := by
  rcases key_cases a with ⟨m, ha, hka⟩ | ⟨m, ha, hka⟩
  · rcases key_cases b with ⟨n, hb, hkb⟩ | ⟨n, hb, hkb⟩
    · rw [ha, hb, hka, hkb, String.ofList_inj, Sum.inl.injEq]
      exact dotted_injective.eq_iff
    · rw [ha, hb, hka, hkb, String.ofList_inj]
      exact iff_of_false (dotted_ne_subnet m n) (by simp)
  · rcases key_cases b with ⟨n, hb, hkb⟩ | ⟨n, hb, hkb⟩
    · rw [ha, hb, hka, hkb, String.ofList_inj]
      exact iff_of_false (fun h => dotted_ne_subnet n m h.symm) (by simp)
    · rw [ha, hb, hka, hkb, String.ofList_inj, Sum.inr.injEq]
      exact subnet_eq_iff m n

/-- Nobody's address is counted as one that is not known. -/
theorem key_ne_unknown (ip : IpAddr) : ip.key ≠ "unknown" := by
  have hsep : '.' ∈ ip.key.toList ∨ ':' ∈ ip.key.toList := by
    rcases key_cases ip with ⟨a, -, hkey⟩ | ⟨a, -, hkey⟩
    · rw [hkey, String.toList_ofList, dotted]
      simp
    · rw [hkey, String.toList_ofList, subnet]
      simp
  intro h
  rw [h] at hsep
  revert hsep
  decide

end IpAddr

/-! ## Requests -/

open McpHttp

variable {parse : List Char → Option IpAddr}

/-- Without a proxy, two requests are counted as one client's exactly where their peers are one
subscriber's, or neither is known, whatever their headers say. -/
theorem clientAddr_eq_iff (parse parse' : List Char → Option IpAddr) (headers headers' : Headers)
    (peer peer' : Option IpAddr) :
    clientAddr parse headers peer false = clientAddr parse' headers' peer' false ↔
      peer.map IpAddr.subscriber = peer'.map IpAddr.subscriber := by
  show (peer.map IpAddr.key).getD "unknown" = (peer'.map IpAddr.key).getD "unknown" ↔ _
  cases peer with
  | none =>
    cases peer' with
    | none => simp
    | some b => simpa using (IpAddr.key_ne_unknown b).symm
  | some a =>
    cases peer' with
    | none => simpa using IpAddr.key_ne_unknown a
    | some b => simpa using IpAddr.key_eq_iff a b

/-- A request of `ip`'s subscriber. -/
def LimitedRequest.Of (ip : IpAddr) (r : LimitedRequest) : Prop :=
  r.peer.map IpAddr.subscriber = some ip.subscriber

instance (ip : IpAddr) (r : LimitedRequest) : Decidable (r.Of ip) :=
  inferInstanceAs (Decidable (_ = _))

theorem LimitedRequest.addr_eq_iff (r : LimitedRequest) (ip : IpAddr) :
    (r.asking parse false).addr = ip.key ↔ r.Of ip := by
  show (r.peer.map IpAddr.key).getD "unknown" = ip.key ↔ _
  rw [Of]
  cases r.peer with
  | none => simpa using (IpAddr.key_ne_unknown ip).symm
  | some a => simpa using IpAddr.key_eq_iff a ip

namespace Limiter

variable {perMinute : UInt32} {s : Limiter} {rs : List LimitedRequest} {ip : IpAddr}

/-- The times of `ip`'s requests, the newest first. -/
def times (ip : IpAddr) (rs : List LimitedRequest) : List Nat :=
  ((rs.filter fun r => r.Of ip).map (·.now)).reverse

theorem times_concat (ip : IpAddr) (rs : List LimitedRequest) (r : LimitedRequest) :
    times ip (rs ++ [r]) = if r.Of ip then r.now :: times ip rs else times ip rs := by
  by_cases h : r.Of ip
  · simp [times, h]
  · simp [times, h]

/-- What is counted for an address is what its subscriber asked since it had to go. -/
theorem since_times (hrun : run step (start perMinute) (rs.map (·.asking parse false)) = some s)
    (hfew : Few (rs.map (·.asking parse false))) :
    (since ip.key s.log).map (·.at_) <+: times ip rs ∧
      ((∀ r ∈ rs, ip.key ∉ r.victims) → (since ip.key s.log).map (·.at_) = times ip rs) := by
  induction rs using List.reverseRecOn generalizing s with
  | nil =>
    obtain rfl := run_nil.mp hrun
    exact ⟨List.nil_prefix, fun _ => rfl⟩
  | append_singleton rs r ih =>
    rw [List.map_append, List.map_singleton] at hrun hfew
    obtain ⟨u, hu, hstep⟩ := run_concat.mp hrun
    obtain ⟨hcounted, hsame⟩ := ih hu hfew.of_append
    have htallied := tallied_of_run hu hfew.of_append
    obtain ⟨seen, -, hrooms, -, -, hlog⟩ := of_step htallied.room hstep
    rw [hlog, since_step hrooms, times_concat]
    by_cases haddr : r.Of ip
    · rw [if_pos (r.addr_eq_iff ip |>.mpr haddr), if_pos haddr, List.map_cons]
      refine ⟨List.prefix_cons_inj _ |>.mpr hcounted, fun hkept => ?_⟩
      rw [hsame fun q hq => hkept q (List.mem_append_left _ hq)]
      rfl
    · rw [if_neg (fun h => haddr (r.addr_eq_iff ip |>.mp h)), if_neg haddr]
      refine ⟨?_, fun hkept => ?_⟩
      · split_ifs
        · exact List.nil_prefix
        · exact hcounted
      · have hnot : ip.key ∉ (r.asking parse false).victims := hkept r (by simp)
        rw [if_neg hnot]
        exact hsame fun q hq => hkept q (List.mem_append_left _ hq)

end Limiter

/-- **Whom a request is counted against.** In any run of the limiter without a proxy, what is counted
for an address are the requests of its subscriber, whatever headers they came with and whichever
of its addresses they came from, all of them unless it had to make room meanwhile, and nobody
else's; and of these at most twice the limit is let through in a window's time. -/
theorem subscribers_limited (parse : List Char → Option IpAddr) (perMinute : UInt32)
    (rs : List LimitedRequest) (s : Limiter) (ip : IpAddr)
    (hrun : run Limiter.step (.start perMinute) (rs.map (·.asking parse false)) = some s)
    (hfew : Few (rs.map (·.asking parse false))) :
    (since ip.key s.log).map (·.at_) <+: Limiter.times ip rs ∧
      ((∀ r ∈ rs, ip.key ∉ r.victims) →
        (since ip.key s.log).map (·.at_) = Limiter.times ip rs) ∧
      ∀ x, ((since ip.key s.log).filter fun c =>
        c.allowed && (decide (x ≤ c.at_) && decide (c.at_ ≤ x + WINDOW))).length ≤
          2 * perMinute.toNat := by
  obtain ⟨hcounted, hsame⟩ := @Limiter.since_times parse perMinute s rs ip hrun hfew
  have hwindowed := (Limiter.tallied_of_run hrun hfew).windowed ip.key
  exact ⟨hcounted, hsame, hwindowed.length_between⟩

/-- Two addresses of one `/64`, and another subscriber's between them. -/
def sampleRequests : List LimitedRequest :=
  [⟨[], some (.v6 0x20010db8000000000000000000000001), 5, []⟩, ⟨[], some (.v4 0xc6336401), 6, []⟩,
    ⟨[], some (.v6 0x20010db8000000000000000000000002), 7, []⟩]

theorem subscribers_limited_sample :
    ∃ s, run Limiter.step (.start 1) (sampleRequests.map (·.asking (fun _ => none) false)) = some s ∧
      (since (IpAddr.key (.v6 0x20010db8000000000000000000000003)) s.log).map (·.at_) = [7, 5] := by
  obtain ⟨s, hrun⟩ := Option.isSome_iff_exists.mp (show (run Limiter.step (.start 1)
    (sampleRequests.map (·.asking (fun _ => none) false))).isSome = true by decide +kernel)
  have hfew : Few (sampleRequests.map (·.asking (fun _ => none) false)) := fun _ _ =>
    (List.length_filter_le _ _).trans_lt (by decide)
  have hkept : ∀ r ∈ sampleRequests,
      IpAddr.key (.v6 0x20010db8000000000000000000000003) ∉ r.victims := by
    simp [sampleRequests]
  obtain ⟨-, hsame, -⟩ := subscribers_limited (fun _ => none) 1 sampleRequests s
    (.v6 0x20010db8000000000000000000000003) hrun hfew
  exact ⟨s, hrun, hsame hkept⟩

end Wires
