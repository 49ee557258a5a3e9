import Wires.Framework.Run
import Wires.Impl.Capability
import Wires.Proof.Trust

/-!
# A push capability reaches its caller only

A text that `check` reads as a node id is one that `recipients` reads as that
node id too (`recipients_of_fromHex`). What the table of tokens holds of each
call is `ChildSocket.Good`: a running call's token without an end, an ended
call's with one until the grace period is over, and nothing else. A check
therefore succeeds just for a live token and its caller (`Good.check_iff`), and
what a child's line sends goes to that caller (`capability_confined`).
-/

namespace Wires

/-! ## Node ids -/

theorem utf8Size_of_hexVal {c : Char} {n : Nat} (h : Json.hexVal c = some n) : c.utf8Size = 1 := by
  have hle : c.toNat ≤ 127 := by
    simp only [Json.hexVal, Char.le_def] at h
    have h1 : ('9' : Char).toNat = 57 := rfl
    have h2 : ('f' : Char).toNat = 102 := rfl
    have h3 : ('F' : Char).toNat = 70 := rfl
    split_ifs at h with h9 hf hF
    · exact le_trans (UInt32.le_iff_toNat_le.mp h9.2) (by decide)
    · exact le_trans (UInt32.le_iff_toNat_le.mp hf.2) (by decide)
    · exact le_trans (UInt32.le_iff_toNat_le.mp hF.2) (by decide)
  exact Char.utf8Size_eq_one_iff.mpr (UInt32.le_iff_toNat_le.mpr hle)

/-- Hex text is two bytes for each byte it stands for. -/
theorem length_utf8_of_hexDecode (cs : List Char) {bs : List UInt8} (h : hexDecode cs = some bs) :
    (utf8 cs).length = 2 * bs.length := by
  fun_induction hexDecode cs generalizing bs with
  | case1 =>
    obtain rfl := Option.some.inj h
    rfl
  | case2 => cases h
  | case3 a b cs ih =>
    simp only [Option.bind_eq_bind, Option.bind_eq_some_iff, Option.pure_def] at h
    obtain ⟨m, ha, n, hb, bs', hcs, h⟩ := h
    obtain rfl := Option.some.inj h
    have hla := utf8Size_of_hexVal ha
    have hlb := utf8Size_of_hexVal hb
    have hutf8 : utf8 (a :: b :: cs) =
        String.utf8EncodeChar a ++ (String.utf8EncodeChar b ++ utf8 cs) := rfl
    rw [hutf8, List.length_append, List.length_append, String.length_utf8EncodeChar,
      String.length_utf8EncodeChar, hla, hlb, ih hcs, List.length_cons]
    omega

theorem byteLen_of_fromHex {s : String} {n : NodeId} (h : NodeId.fromHex s = some n) :
    byteLen s = 64 := by
  obtain ⟨bs, hbs, hn⟩ := Option.bind_eq_some_iff.mp h
  have hlen : bs.length = 32 := by
    rw [Bytes.ofList?] at hn
    split_ifs at hn with hlen
    exact hlen
  rw [byteLen, ← length_utf8_toList, length_utf8_of_hexDecode _ hbs, hlen]

/-- A text that is a node id is that node for a push too, whatever the roles hold. -/
theorem recipients_of_fromHex [Web] {s : String} {n : NodeId} (h : NodeId.fromHex s = some n)
    (inRole : RoleName → List NodeId) : recipients s inRole = .ok [n] := by
  rw [recipients, if_pos (byteLen_of_fromHex h), h]

theorem sends_of_fromHex [Web] {me n : NodeId} {inRole : RoleName → List NodeId}
    {ids : Nat → PushId} {atMs : Int64} {spec : PushSpec} {messages : List PushMessage}
    (hto : NodeId.fromHex spec.to_ = some n) (h : sends me inRole ids atMs spec = .ok messages) :
    ∃ m, messages = [m] ∧ m.recipient = n := by
  rw [sends, recipients_of_fromHex hto] at h
  obtain ⟨-, -, h⟩ := bind_eq_ok.mp h
  obtain rfl := pure_eq_ok.mp h
  exact ⟨_, rfl, rfl⟩

/-! ## Calls and their tokens -/

namespace CapableCall

/-- Whose call it is, and its token. -/
def capability : CapableCall → Option (PushToken × NodeId)
  | .idle => none
  | .runs token caller | .ends token caller _ | .ended token caller _ => some (token, caller)

/-- When its token dies; none while the call has not ended. -/
def expires : CapableCall → Option Nat
  | .ended _ _ at_ => some (at_ + CAPABILITY_GRACE)
  | _ => none

end CapableCall

namespace ChildSocket

variable {ι κ : Type}

/-- At `now`, the token is one of a call of `caller` that has not ended, or ended less than the
grace period ago. -/
def Live (s : ChildSocket ι κ) (token : PushToken) (caller : NodeId) (now : Nat) : Prop :=
  ∃ i, (s.calls i).capability = some (token, caller) ∧ ∀ e, (s.calls i).expires = some e → now < e

/-- What the table of tokens has to do with the calls. -/
structure Good (s : ChildSocket ι κ) : Prop where
  minted : ∀ i token caller, (s.calls i).capability = some (token, caller) → token ∈ s.minted
  distinct : ∀ i j token c d, (s.calls i).capability = some (token, c) →
    (s.calls j).capability = some (token, d) → i = j
  granted : ∀ token g, s.caps.grants token = some g →
    ∃ i caller, (s.calls i).capability = some (token, caller)
  held : ∀ i token caller, (s.calls i).capability = some (token, caller) →
    s.caps.grants token = some ⟨caller, (s.calls i).expires⟩ ∨
    s.caps.grants token = none ∧ ∃ e, (s.calls i).expires = some e ∧ e ≤ s.clock
  checks : ∀ k token spec now, s.lines k = .checks token spec now → now ≤ s.clock

variable {s t : ChildSocket ι κ}

theorem good_start : Good (start : ChildSocket ι κ) where
  minted := nofun
  distinct := nofun
  granted := nofun
  held := nofun
  checks := nofun

theorem Good.tick (h : Good s) {now : Nat} (hle : s.clock ≤ now) :
    Good { s with clock := now } where
  minted := h.minted
  distinct := h.distinct
  granted := h.granted
  held i token caller hi := by
    rcases h.held i token caller hi with hg | ⟨hg, e, he, hpast⟩
    · exact .inl hg
    · exact .inr ⟨hg, e, he, hpast.trans hle⟩
  checks k token spec r hk := (h.checks k token spec r hk).trans hle

/-- A grant that is pruned is one whose time is over. -/
theorem Good.prune (h : Good s) {now : Nat} (hle : now ≤ s.clock) :
    Good { s with caps := s.caps.prune now } where
  minted := h.minted
  distinct := h.distinct
  granted token g hg := h.granted token g (Option.filter_eq_some_iff.mp hg).1
  held i token caller hi := by
    rcases h.held i token caller hi with hg | ⟨hg, hpast⟩
    · by_cases hkeep : (s.calls i).expires.all (fun e => e > now) = true
      · exact .inl (Option.filter_eq_some_iff.mpr ⟨hg, hkeep⟩)
      · rw [Option.all_eq_true] at hkeep
        simp only [not_forall, decide_eq_true_eq, not_lt] at hkeep
        obtain ⟨e, he, hpast⟩ := hkeep
        refine .inr ⟨Option.filter_eq_none_iff.mpr fun g hg' => ?_, e, he, hpast.trans hle⟩
        obtain rfl := Option.some.inj (hg.symm.trans hg')
        simp [he, hpast]
    · refine .inr ⟨Option.filter_eq_none_iff.mpr fun g hg' => ?_, hpast⟩
      rw [hg] at hg'
      cases hg'
  checks := h.checks

variable [DecidableEq ι] [DecidableEq κ]

omit [DecidableEq κ] in
theorem capability_calling {i j : ι} {c : CapableCall} :
    ((s.calling i c).calls j).capability =
      if j = i then c.capability else (s.calls j).capability := by
  show (Function.update s.calls i c j).capability = _
  rw [Function.update_apply]
  split_ifs <;> rfl

omit [DecidableEq κ] in
theorem expires_calling {i j : ι} {c : CapableCall} :
    ((s.calling i c).calls j).expires = if j = i then c.expires else (s.calls j).expires := by
  show (Function.update s.calls i c j).expires = _
  rw [Function.update_apply]
  split_ifs <;> rfl

omit [DecidableEq κ] in
/-- A step of a call that has the same token afterwards. -/
theorem Good.calling (h : Good s) {i : ι} {c : CapableCall} {caps : Capabilities}
    (hc : c.capability = (s.calls i).capability)
    (hcaps : ∀ token, (∀ caller, (s.calls i).capability ≠ some (token, caller)) →
      caps.grants token = s.caps.grants token)
    (hmine : ∀ token caller, (s.calls i).capability = some (token, caller) →
      caps.grants token = some ⟨caller, c.expires⟩ ∨
      caps.grants token = none ∧ ∃ e, c.expires = some e ∧ e ≤ s.clock) :
    Good { s.calling i c with caps } := by
  have hcap : ∀ j, ((s.calling i c).calls j).capability = (s.calls j).capability := by
    intro j
    rw [capability_calling]
    split_ifs with hj
    · rw [hc, hj]
    · rfl
  refine ⟨fun j t d hj => ?_, fun j k t d e hj hk => ?_, fun t g hg => ?_, fun j t d hj => ?_,
    h.checks⟩
  · exact h.minted j t d ((hcap j).symm.trans hj)
  · exact h.distinct j k t d e ((hcap j).symm.trans hj) ((hcap k).symm.trans hk)
  · by_cases ht : ∃ caller, (s.calls i).capability = some (t, caller)
    · obtain ⟨caller, ht⟩ := ht
      exact ⟨i, caller, (hcap i).trans ht⟩
    · obtain ⟨j, d, hj⟩ := h.granted t g ((hcaps t fun caller hi => ht ⟨caller, hi⟩).symm.trans hg)
      exact ⟨j, d, (hcap j).trans hj⟩
  · have hj' : (s.calls j).capability = some (t, d) := (hcap j).symm.trans hj
    rw [expires_calling]
    by_cases hji : j = i
    · rw [if_pos hji]
      exact hmine t d (hji ▸ hj')
    · have hother : ∀ caller, (s.calls i).capability ≠ some (t, caller) := fun caller hi =>
        hji (h.distinct j i t d caller hj' hi)
      rw [if_neg hji]
      show caps.grants t = _ ∨ caps.grants t = none ∧ _
      rw [hcaps t hother]
      exact h.held j t d hj'

omit [DecidableEq κ] in
theorem Good.mint (h : Good s) {i : ι} (hi : s.calls i = .idle) {token : PushToken}
    (hnew : token ∉ s.minted) (caller : NodeId) :
    Good { s.calling i (.runs token caller) with
      caps := s.caps.mint token caller s.clock
      minted := token :: s.minted } := by
  have hp := h.prune le_rfl
  -- No call had the token before.
  have hother : ∀ j d, ¬(s.calls j).capability = some (token, d) := fun j d hj =>
    hnew (h.minted j token d hj)
  have hcall : ∀ j t c, ((s.calling i (.runs token caller)).calls j).capability = some (t, c) →
      j = i ∧ t = token ∧ c = caller ∨
      j ≠ i ∧ t ≠ token ∧ (s.calls j).capability = some (t, c) := by
    intro j t c hj
    rw [capability_calling] at hj
    split_ifs at hj with hji
    · cases hj
      exact .inl ⟨hji, rfl, rfl⟩
    · refine .inr ⟨hji, ?_, hj⟩
      rintro rfl
      exact hother j c hj
  refine ⟨fun j t c hj => ?_, fun j k t c d hj hk => ?_, fun t g hg => ?_, fun j t c hj => ?_,
    h.checks⟩
  · rcases hcall j t c hj with ⟨-, rfl, -⟩ | ⟨-, -, hj⟩
    · exact List.mem_cons_self
    · exact List.mem_cons_of_mem _ (h.minted j t c hj)
  · rcases hcall j t c hj with ⟨rfl, rfl, -⟩ | ⟨-, hne, hj⟩
    · rcases hcall k t d hk with ⟨rfl, -, -⟩ | ⟨-, hne, -⟩
      · rfl
      · exact absurd rfl hne
    · rcases hcall k t d hk with ⟨-, rfl, -⟩ | ⟨-, -, hk⟩
      · exact absurd rfl hne
      · exact h.distinct j k t c d hj hk
  · by_cases ht : t = token
    · subst ht
      exact ⟨i, caller, by rw [capability_calling, if_pos rfl]; rfl⟩
    · have hg' : (s.caps.prune s.clock).grants t = some g :=
        (Function.update_of_ne ht _ _).symm.trans hg
      obtain ⟨j, c, hj⟩ := hp.granted t g hg'
      refine ⟨j, c, ?_⟩
      have hji : j ≠ i := by
        rintro rfl
        have hidle : (s.calls j).capability = some (t, c) := hj
        rw [hi] at hidle
        cases hidle
      rw [capability_calling, if_neg hji]
      exact hj
  · rcases hcall j t c hj with ⟨rfl, rfl, rfl⟩ | ⟨hji, hne, hj⟩
    · rw [expires_calling, if_pos rfl]
      exact .inl (Function.update_self ..)
    · have hmint : (s.caps.mint token caller s.clock).grants t =
          (s.caps.prune s.clock).grants t := Function.update_of_ne hne _ _
      rw [expires_calling, if_neg hji]
      show (s.caps.mint token caller s.clock).grants t = _ ∨
        (s.caps.mint token caller s.clock).grants t = none ∧ _
      rw [hmint]
      exact hp.held j t c hj

omit [DecidableEq κ] in
theorem Good.drops (h : Good s) {i : ι} {token : PushToken} {caller : NodeId}
    (hi : s.calls i = .runs token caller) : Good (s.calling i (.ends token caller s.clock)) := by
  have hsame : (CapableCall.ends token caller s.clock).capability = (s.calls i).capability := by
    rw [hi]
    rfl
  refine @calling _ _ s _ h i _ s.caps hsame (fun _ _ => rfl) fun t c ht => ?_
  have hheld := h.held i t c ht
  rw [hi] at hheld
  exact hheld

omit [DecidableEq κ] in
theorem Good.finish (h : Good s) {i : ι} {token : PushToken} {caller : NodeId} {at_ : Nat}
    (hi : s.calls i = .ends token caller at_) :
    Good { s.calling i (.ended token caller at_) with caps := s.caps.finish token at_ } := by
  have hmine : (s.calls i).capability = some (token, caller) := by
    rw [hi]
    rfl
  -- The token of a call that has not ended is never pruned.
  have hgrant : s.caps.grants token = some ⟨caller, none⟩ := by
    rcases h.held i token caller hmine with hg | ⟨-, e, he, -⟩
    · rw [hg, hi]
      rfl
    · rw [hi] at he
      cases he
  have hcaps : s.caps.finish token at_ = ⟨Function.update s.caps.grants token
      (some ⟨caller, some (at_ + CAPABILITY_GRACE)⟩)⟩ := by
    rw [Capabilities.finish, hgrant]
  rw [hcaps]
  refine h.calling (by rw [hi]; rfl) (fun t ht => ?_) fun t c ht => ?_
  · have hne : t ≠ token := by
      rintro rfl
      exact ht caller hmine
    exact Function.update_of_ne hne _ _
  · obtain ⟨rfl, rfl⟩ : token = t ∧ caller = c := by
      have := hmine.symm.trans ht
      simpa using this
    exact .inl (Function.update_self ..)

omit [DecidableEq ι] in
theorem Good.lining (h : Good s) {k : κ} {l : ControlLine}
    (hl : ∀ token spec now, l = .checks token spec now → now ≤ s.clock) : Good (s.lining k l) where
  minted := h.minted
  distinct := h.distinct
  granted := h.granted
  held := h.held
  checks j token spec now hj := by
    have hj : Function.update s.lines k l j = .checks token spec now := hj
    rw [Function.update_apply] at hj
    split_ifs at hj
    · exact hl token spec now hj
    · exact h.checks j token spec now hj

/-! ## Steps -/

section

variable [Web]

omit [DecidableEq ι] [DecidableEq κ] in
theorem readLine_checks {line : List UInt8} {clock now : Nat} {token : PushToken} {spec : PushSpec}
    (h : readLine line clock = .checks token spec now) : now = clock := by
  unfold readLine at h
  split at h
  · cases h
  · split at h
    · split at h
      · cases h
        rfl
      · cases h
    · cases h
    · cases h

theorem Good.step {me : NodeId} {e : ChildEvent ι κ} (h : Good s) (hs : s.step me e = some t) :
    Good t := by
  cases e with
  | tick now =>
    simp only [ChildSocket.step] at hs
    split_ifs at hs with hle
    obtain rfl := Option.some.inj hs
    exact h.tick hle
  | mint i token caller =>
    simp only [ChildSocket.step] at hs
    split at hs
    · rename_i hi
      split_ifs at hs with hnew
      obtain rfl := Option.some.inj hs
      exact h.mint hi hnew caller
    · cases hs
  | drops i =>
    simp only [ChildSocket.step] at hs
    split at hs
    · rename_i hi
      obtain rfl := Option.some.inj hs
      exact h.drops hi
    · cases hs
  | finish i =>
    simp only [ChildSocket.step] at hs
    split at hs
    · rename_i hi
      obtain rfl := Option.some.inj hs
      exact h.finish hi
    · cases hs
  | line k line =>
    simp only [ChildSocket.step] at hs
    split at hs
    · obtain rfl := Option.some.inj hs
      exact h.lining fun token spec now hl => (readLine_checks hl).le
    · cases hs
  | check k =>
    simp only [ChildSocket.step] at hs
    split at hs
    · rename_i token spec now hk
      obtain rfl := Option.some.inj hs
      refine (h.prune (h.checks k token spec now hk)).lining fun token' spec' now' hl => ?_
      split at hl <;> cases hl
    · cases hs
  | send k inRole ids atMs =>
    simp only [ChildSocket.step] at hs
    split at hs
    · obtain rfl := Option.some.inj hs
      refine h.lining fun token spec now hl => ?_
      split at hl <;> cases hl
    · cases hs

/-! ## Checks -/

omit [Web] [DecidableEq ι] [DecidableEq κ] in
theorem check_eq_ok {c : Capabilities} {token : PushToken} {to_ : String} {now : Nat} {g : Grant} :
    (c.check token to_ now).2 = .ok g ↔ c.grants token = some g ∧
      (∀ e, g.expires = some e → now < e) ∧ NodeId.fromHex to_ = some g.caller := by
  have hprune : (c.prune now).grants token = some g ↔
      c.grants token = some g ∧ ∀ e, g.expires = some e → now < e := by
    show (c.grants token).filter _ = some g ↔ _
    rw [Option.filter_eq_some_iff, Option.all_eq_true]
    simp only [decide_eq_true_eq]
  rw [← and_assoc, ← hprune]
  simp only [Capabilities.check]
  split
  · rename_i hnone
    rw [hnone]
    simp
  · rename_i g' hsome
    rw [hsome]
    split_ifs with hto
    · constructor
      · intro h
        obtain rfl := Except.ok.inj h
        exact ⟨rfl, hto⟩
      · rintro ⟨heq, -⟩
        rw [Option.some.inj heq]
    · constructor
      · intro h
        cases h
      · rintro ⟨heq, hto'⟩
        obtain rfl := Option.some.inj heq
        exact absurd hto' hto

omit [Web] [DecidableEq ι] [DecidableEq κ] in
/-- A grant in the table is for one call, and lasts as long as that call's token does. -/
theorem Good.live_iff (h : Good s) {token : PushToken} {g : Grant}
    (hg : s.caps.grants token = some g) {caller : NodeId} {now : Nat} :
    s.Live token caller now ↔ g.caller = caller ∧ ∀ e, g.expires = some e → now < e := by
  have hcall : ∀ i c, (s.calls i).capability = some (token, c) → g = ⟨c, (s.calls i).expires⟩ := by
    intro i c hi
    rcases h.held i token c hi with hg' | ⟨hnone, -⟩
    · exact Option.some.inj (hg.symm.trans hg')
    · rw [hnone] at hg
      cases hg
  constructor
  · rintro ⟨i, hi, hnow⟩
    obtain rfl := hcall i caller hi
    exact ⟨rfl, hnow⟩
  · rintro ⟨rfl, hnow⟩
    obtain ⟨i, c, hi⟩ := h.granted token g hg
    obtain rfl := hcall i c hi
    exact ⟨i, hi, hnow⟩

omit [Web] [DecidableEq ι] [DecidableEq κ] in
theorem Good.not_live (h : Good s) {token : PushToken} (hg : s.caps.grants token = none)
    (caller : NodeId) : ¬s.Live token caller s.clock := by
  rintro ⟨i, hi, hnow⟩
  rcases h.held i token caller hi with hg' | ⟨-, e, he, hpast⟩
  · rw [hg] at hg'
    cases hg'
  · exact absurd (hnow e he) (not_lt.mpr hpast)

omit [Web] [DecidableEq ι] [DecidableEq κ] in
/-- A check whose clock was read at `now` answers as the calls are at some moment since. -/
theorem Good.check_iff (h : Good s) (token : PushToken) (to_ : String) {now : Nat}
    (hle : now ≤ s.clock) : ∃ m, now ≤ m ∧ m ≤ s.clock ∧
      (isOk (s.caps.check token to_ now).2 = true ↔
        ∃ caller, NodeId.fromHex to_ = some caller ∧ s.Live token caller m) := by
  cases hg : s.caps.grants token with
  | none =>
    refine ⟨s.clock, hle, le_rfl, ?_⟩
    simp only [isOk_iff, check_eq_ok, hg]
    constructor
    · rintro ⟨g, hnone, -⟩
      cases hnone
    · rintro ⟨caller, -, hlive⟩
      exact absurd hlive (h.not_live hg caller)
  | some g =>
    refine ⟨now, le_rfl, hle, ?_⟩
    simp only [isOk_iff, check_eq_ok, hg, h.live_iff hg]
    constructor
    · rintro ⟨g', hg', hnow, hto⟩
      obtain rfl := Option.some.inj hg'
      exact ⟨_, hto, rfl, hnow⟩
    · rintro ⟨caller, hto, rfl, hnow⟩
      exact ⟨g, rfl, hnow, hto⟩

/-! ## Lines -/

/-- Line `k` is a call's push whose check went well. -/
def Checked (me : NodeId) (es : List (ChildEvent ι κ)) (k : κ) (token : PushToken) (spec : PushSpec)
    (g : Grant) : Prop :=
  ∃ es₁ es₂ u now, es = es₁ ++ .check k :: es₂ ∧ run (step me) start es₁ = some u ∧
    u.lines k = .checks token spec now ∧ (u.caps.check token spec.to_ now).2 = .ok g

theorem Checked.concat {me : NodeId} {es : List (ChildEvent ι κ)} {k : κ} {token : PushToken}
    {spec : PushSpec} {g : Grant} (h : Checked me es k token spec g) (e : ChildEvent ι κ) :
    Checked me (es ++ [e]) k token spec g := by
  obtain ⟨es₁, es₂, u, now, rfl, hu, hk, hok⟩ := h
  exact ⟨es₁, es₂ ++ [e], u, now, by simp, hu, hk, hok⟩

theorem Checked.fromHex_eq {me : NodeId} {es : List (ChildEvent ι κ)} {k : κ} {token : PushToken}
    {spec : PushSpec} {g : Grant} (h : Checked me es k token spec g) :
    NodeId.fromHex spec.to_ = some g.caller := by
  obtain ⟨_, _, _, _, -, -, -, hok⟩ := h
  exact (check_eq_ok.mp hok).2.2

/-- What a line has come to, after a run. -/
def Answers (me : NodeId) (es : List (ChildEvent ι κ)) (k : κ) : ControlLine → Prop
  | .dispatched token spec g => Checked me es k token spec g
  | .sent token spec g messages => Checked me es k token spec g ∧
    ∃ m, messages = [m] ∧ m.recipient = g.caller
  | _ => True

theorem Answers.concat {me : NodeId} {es : List (ChildEvent ι κ)} {k : κ} {l : ControlLine}
    (h : Answers me es k l) (e : ChildEvent ι κ) : Answers me (es ++ [e]) k l := by
  cases l with
  | dispatched token spec g => exact Checked.concat h e
  | sent token spec g messages => exact ⟨Checked.concat h.1 e, h.2⟩
  | idle => trivial
  | checks => trivial
  | answered => trivial

/-- Only a check dispatches a line, and only what was dispatched is sent. -/
theorem answers_of_step {me : NodeId} {es : List (ChildEvent ι κ)} {e : ChildEvent ι κ}
    (hrun : run (step me) start es = some s) (h : ∀ k, Answers me es k (s.lines k))
    (hs : s.step me e = some t) : ∀ k, Answers me (es ++ [e]) k (t.lines k) := by
  have hkept : ∀ k, Answers me (es ++ [e]) k (s.lines k) := fun k => (h k).concat e
  have hline : ∀ k l, Answers me (es ++ [e]) k l →
      ∀ j, Answers me (es ++ [e]) j ((s.lining k l).lines j) := by
    intro k l hl j
    show Answers me (es ++ [e]) j (Function.update s.lines k l j)
    rw [Function.update_apply]
    split_ifs with hj
    · rwa [hj]
    · exact hkept j
  cases e with
  | tick now =>
    simp only [ChildSocket.step] at hs
    split_ifs at hs
    obtain rfl := Option.some.inj hs
    exact hkept
  | mint i token caller =>
    simp only [ChildSocket.step] at hs
    split at hs
    · split_ifs at hs
      obtain rfl := Option.some.inj hs
      exact hkept
    · cases hs
  | drops i =>
    simp only [ChildSocket.step] at hs
    split at hs
    · obtain rfl := Option.some.inj hs
      exact hkept
    · cases hs
  | finish i =>
    simp only [ChildSocket.step] at hs
    split at hs
    · obtain rfl := Option.some.inj hs
      exact hkept
    · cases hs
  | line k line =>
    simp only [ChildSocket.step] at hs
    split at hs
    · obtain rfl := Option.some.inj hs
      refine hline k _ ?_
      unfold readLine
      split
      · trivial
      · split
        · split <;> trivial
        · trivial
        · trivial
    · cases hs
  | check k =>
    simp only [ChildSocket.step] at hs
    split at hs
    · rename_i token spec now hk
      obtain rfl := Option.some.inj hs
      refine hline k _ ?_
      cases hok : (s.caps.check token spec.to_ now).2 with
      | ok g => exact ⟨es, [], s, now, rfl, hrun, hk, hok⟩
      | error refusal => trivial
    · cases hs
  | send k inRole ids atMs =>
    simp only [ChildSocket.step] at hs
    split at hs
    · rename_i token spec g hk
      obtain rfl := Option.some.inj hs
      have hchecked : Checked me (es ++ [.send k inRole ids atMs]) k token spec g := by
        have := hkept k
        rwa [hk] at this
      refine hline k _ ?_
      cases hsends : sends me inRole ids atMs spec with
      | ok messages =>
        exact ⟨hchecked, sends_of_fromHex hchecked.fromHex_eq hsends⟩
      | error why => trivial
    · cases hs

theorem good_of_run {me : NodeId} {es : List (ChildEvent ι κ)}
    (h : run (step me) start es = some s) : Good s :=
  run_invariant (fun _ _ _ hg he => hg.step he) good_start h

/-- In every run, a check goes well just for the token of a call that has not ended, or ended less
than the grace period before, with that call's caller for its `--to`; the push it allows has that
caller for its one recipient; and nothing a child's line makes the host send was not allowed so. -/
theorem capability_confined (me : NodeId) (es : List (ChildEvent ι κ)) (s : ChildSocket ι κ)
    (h : run (step me) start es = some s) :
    (∀ token to_ now, now ≤ s.clock → ∃ m, now ≤ m ∧ m ≤ s.clock ∧
      (isOk (s.caps.check token to_ now).2 = true ↔
        ∃ caller, NodeId.fromHex to_ = some caller ∧ s.Live token caller m)) ∧
    (∀ token spec now g, (s.caps.check token spec.to_ now).2 = .ok g →
      s.Live token g.caller now ∧ ∀ inRole ids atMs messages,
        sends me inRole ids atMs spec = .ok messages → ∃ m, messages = [m] ∧ m.recipient = g.caller) ∧
    ∀ k token spec g messages, s.lines k = .sent token spec g messages →
      (∃ m, messages = [m] ∧ m.recipient = g.caller) ∧
      ∃ es₁ es₂ u now, es = es₁ ++ .check k :: es₂ ∧ run (step me) start es₁ = some u ∧
        u.lines k = .checks token spec now ∧ (u.caps.check token spec.to_ now).2 = .ok g := by
  have hgood := good_of_run h
  refine ⟨fun token to_ now hle => hgood.check_iff token to_ hle, fun token spec now g hok => ?_,
    fun k token spec g messages hk => ?_⟩
  · obtain ⟨hg, hnow, hto⟩ := check_eq_ok.mp hok
    exact ⟨(hgood.live_iff hg).mpr ⟨rfl, hnow⟩, fun inRole ids atMs messages hsends =>
      sends_of_fromHex hto hsends⟩
  · have hanswers : ∀ k, Answers me es k (s.lines k) := by
      refine run_induction (motive := fun es s => ∀ k, Answers me es k (s.lines k)) ?_ ?_ h
      · intro k
        trivial
      · intro es e s t hrun ih he
        exact answers_of_step hrun ih he
    have hanswers := hanswers k
    rw [hk] at hanswers
    exact ⟨hanswers.2, hanswers.1⟩

end

/-! ## A push -/

section Sample

attribute [local instance] Web.plain

def sampleCaller : NodeId := .fill 32 2

def sampleToken : PushToken := .fill 32 7

theorem subjectFault_hi : subjectFault "hi" = none := by decide

theorem byteLen_empty : byteLen "" ≤ MAX_PUSH_BODY := by decide

def samplePush : PushSpec :=
  ⟨String.ofList (hexEncode sampleCaller.toList), ⟨"hi", subjectFault_hi⟩, ⟨"", byteLen_empty⟩, none⟩

/-- The request its line holds. -/
def sampleRequest : Json := .obj [("caller_push", .obj [
  ("token", .str (hexEncode sampleToken.toList)),
  ("push", .obj [("to", toJson samplePush.to_), ("subject", toJson samplePush.subject),
    ("body", toJson samplePush.body), ("ttl_secs", .null)])])]

theorem ofJson_sampleRequest : ControlRequest.ofJson sampleRequest =
    some (.callerPush (String.ofList (hexEncode sampleToken.toList)) samplePush) := by
  rfl

theorem fromHex_sampleToken :
    PushToken.fromHex (String.ofList (hexEncode sampleToken.toList)) = some sampleToken := by
  decide +kernel

theorem fromHex_samplePush : NodeId.fromHex samplePush.to_ = some sampleCaller := by
  decide +kernel

theorem readLine_sampleRequest (clock : Nat) :
    readLine (utf8 sampleRequest.compact) clock = .checks sampleToken samplePush clock := by
  have hblank : ¬((utf8 sampleRequest.compact).all fun b =>
      b = 0x20 || b = 0x09 || b = 0x0a || b = 0x0c || b = 0x0d) = true := by
    decide +kernel
  rw [readLine, if_neg hblank, utf8Decode_utf8]
  simp only [Option.bind_some, Json.parse_compact, ofJson_sampleRequest, fromHex_sampleToken]

/-- A call's child asks for a push, and the call ends before the push is checked. -/
def samplePushes : List (ChildEvent Unit Unit) :=
  [.mint () sampleToken sampleCaller, .tick 5, .line () (utf8 sampleRequest.compact), .drops (),
    .finish (), .tick 9, .check (), .send () (fun _ => []) (fun _ => .fill 16 0) 0]

theorem check_sample : ((((⟨fun _ => none⟩ : Capabilities).mint sampleToken sampleCaller 0).finish
    sampleToken 5).check sampleToken samplePush.to_ 5).2 =
      .ok ⟨sampleCaller, some (5 + CAPABILITY_GRACE)⟩ := by
  refine check_eq_ok.mpr ⟨?_, ?_, fromHex_samplePush⟩
  · simp [Capabilities.mint, Capabilities.finish]
  · intro e he
    obtain rfl := Option.some.inj he
    decide

theorem sends_samplePush : ∃ messages, sends (.fill 32 1) (fun _ => []) (fun _ => .fill 16 0) 0
    samplePush = .ok messages := by
  rw [sends, recipients_of_fromHex fromHex_samplePush]
  exact ⟨_, rfl⟩

theorem run_samplePushes : ∃ s g messages, run (step (.fill 32 1)) start samplePushes = some s ∧
    s.lines () = .sent sampleToken samplePush g messages := by
  obtain ⟨messages, hsends⟩ := sends_samplePush
  simp [samplePushes, run, step, calling, lining, start, readLine_sampleRequest, check_sample,
    hsends]

/-- The call's caller is sent the push, after the call and within the grace period. -/
theorem capability_confined_sample : ∃ s g messages,
    run (step (.fill 32 1)) start samplePushes = some s ∧
      s.lines () = .sent sampleToken samplePush g messages ∧
      ∃ m, messages = [m] ∧ m.recipient = g.caller := by
  obtain ⟨s, g, messages, hrun, hsent⟩ := run_samplePushes
  obtain ⟨-, -, hlines⟩ := capability_confined (.fill 32 1) samplePushes s hrun
  exact ⟨s, g, messages, hrun, hsent, (hlines () sampleToken samplePush g messages hsent).1⟩

end Sample

end ChildSocket

end Wires
