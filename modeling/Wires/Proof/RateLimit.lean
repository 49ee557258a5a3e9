import Wires.Impl.RateLimit

/-!
# How many requests the gateway allows

What the table has of an address is the window its last request was counted in,
and how many were counted there; an address it does not have has no request in
a window that is still open (`Tallied`). So the requests of an address, since
it had to go (`since`), are `Windowed`, and a request is allowed exactly if
fewer than `per_minute` came before it in its window (`rate_limited`).
-/

namespace Wires

/-! ## Making room -/

namespace RateLimit

/-- How room is made: there is some, or what has passed goes, or, where nothing has, the oldest. -/
inductive Rooms (l : RateLimit) (addr : String) (now : Nat) :
    List String → SortedMap String (Nat × UInt32) → Prop where
  | stays (h : l.seen.get? addr = none → l.seen.length < MAX_TRACKED_ADDRS) :
      Rooms l addr now [] l.seen
  | prunes (hnew : l.seen.get? addr = none)
      (hroom : (l.seen.retain fun e => now - e.1 < WINDOW).length < MAX_TRACKED_ADDRS) :
      Rooms l addr now [] (l.seen.retain fun e => now - e.1 < WINDOW)
  | evicts {k : String} {e : Nat × UInt32} (hnew : l.seen.get? addr = none)
      (hall : ∀ x f, l.seen.get? x = some f → now - f.1 < WINDOW ∧ e.1 ≤ f.1)
      (hk : l.seen.get? k = some e)
      (hroom : ((l.seen.retain fun e => now - e.1 < WINDOW).erase k).length < MAX_TRACKED_ADDRS) :
      Rooms l addr now [k] ((l.seen.retain fun e => now - e.1 < WINDOW).erase k)

variable {l : RateLimit} {addr : String} {now : Nat} {victims : List String}
  {seen : SortedMap String (Nat × UInt32)}

theorem rooms_of_room (hlen : l.seen.length ≤ MAX_TRACKED_ADDRS)
    (h : l.room addr now victims = some seen) : Rooms l addr now victims seen := by
  unfold room at h
  split_ifs at h with hfull hnone
  · obtain ⟨hlong, hkey⟩ := hfull
    have hnew : l.seen.get? addr = none := by simpa [SortedMap.containsKey] using hkey
    cases victims with
    | nil =>
      simp only [SortedMap.evict, Option.ite_none_right_eq_some, Option.some.injEq] at h
      obtain ⟨hroom, rfl⟩ := h
      exact .prunes hnew hroom
    | cons k ks =>
      simp only [SortedMap.evict, Option.ite_none_right_eq_some] at h
      obtain ⟨⟨hstill, hold⟩, h⟩ := h
      obtain ⟨e, hk, hle⟩ := SortedMap.of_isOldest hold
      have hless := SortedMap.length_erase_lt hk
      have hsame : l.seen.length ≤ (l.seen.retain fun e => now - e.1 < WINDOW).length := by omega
      have hlive : ∀ x f, l.seen.get? x = some f → now - f.1 < WINDOW := fun x f hx => by
        have hin := SortedMap.live_of_length_retain hsame hx
        exact of_decide_eq_true hin
      have hall : ∀ x f, l.seen.get? x = some f → now - f.1 < WINDOW ∧ e.1 ≤ f.1 := by
        intro x f hx
        refine ⟨hlive x f hx, hle x f ?_⟩
        rw [SortedMap.get?_retain, hx, Option.filter_some, if_pos (decide_eq_true (hlive x f hx))]
      have hshort := SortedMap.length_retain_le (fun e : Nat × UInt32 => decide (now - e.1 < WINDOW)) l.seen
      have hroom : ((l.seen.retain fun e => now - e.1 < WINDOW).erase k).length <
          MAX_TRACKED_ADDRS := by omega
      -- One was enough.
      cases ks with
      | nil =>
        simp only [SortedMap.evict, Option.ite_none_right_eq_some, Option.some.injEq] at h
        rw [← h.2]
        exact .evicts hnew hall (SortedMap.get?_of_retain hk) hroom
      | cons k' ks =>
        simp only [SortedMap.evict, Option.ite_none_right_eq_some] at h
        omega
  · obtain rfl := Option.some.inj h
    rw [hnone]
    refine .stays fun hnew => ?_
    by_contra hlong
    exact hfull ⟨not_lt.mp hlong, by simp [SortedMap.containsKey, hnew]⟩

/-- Of `addr` itself nothing goes. -/
theorem Rooms.get?_self (h : Rooms l addr now victims seen) : seen.get? addr = l.seen.get? addr := by
  cases h with
  | stays _ => rfl
  | prunes hnew _ => rw [SortedMap.get?_retain, hnew, Option.filter_none]
  | evicts hnew _ hk _ =>
    rw [SortedMap.get?_erase, SortedMap.get?_retain, hnew, Option.filter_none, ite_self]

theorem Rooms.self_notMem (h : Rooms l addr now victims seen) : addr ∉ victims := by
  cases h with
  | stays _ => exact List.not_mem_nil
  | prunes _ _ => exact List.not_mem_nil
  | evicts hnew _ hk _ =>
    intro hmem
    rw [List.mem_singleton.mp hmem, hk] at hnew
    cases hnew

/-- Who has to go is in the table, where every window is open and none older. -/
theorem Rooms.of_mem (h : Rooms l addr now victims seen) {k : String} (hk : k ∈ victims) :
    ∃ f, l.seen.get? k = some f ∧ seen.get? k = none ∧
      ∀ x g, l.seen.get? x = some g → now - g.1 < WINDOW ∧ f.1 ≤ g.1 := by
  cases h with
  | stays _ => cases hk
  | prunes _ _ => cases hk
  | @evicts k' e _ hall hget _ =>
    obtain rfl := List.mem_singleton.mp hk
    exact ⟨e, hget, by rw [SortedMap.get?_erase, if_pos rfl], hall⟩

/-- What is left was there, and did not have to go. -/
theorem Rooms.of_get? (h : Rooms l addr now victims seen) {x : String} {f : Nat × UInt32}
    (hx : seen.get? x = some f) : l.seen.get? x = some f ∧ x ∉ victims := by
  cases h with
  | stays _ => exact ⟨hx, List.not_mem_nil⟩
  | prunes _ _ => exact ⟨SortedMap.get?_of_retain hx, List.not_mem_nil⟩
  | evicts _ _ _ _ =>
    refine ⟨SortedMap.get?_of_retain (SortedMap.get?_of_erase hx), fun hmem => ?_⟩
    rw [SortedMap.get?_erase, if_pos (List.mem_singleton.mp hmem)] at hx
    cases hx

/-- What is not left had to go, was not there, or its window had passed. -/
theorem Rooms.of_get?_none (h : Rooms l addr now victims seen) {x : String}
    (hx : seen.get? x = none) : x ∈ victims ∨ l.seen.get? x = none ∨
      ∃ f, l.seen.get? x = some f ∧ WINDOW ≤ now - f.1 := by
  have hretain : (l.seen.retain fun e => now - e.1 < WINDOW).get? x = none →
      l.seen.get? x = none ∨ ∃ f, l.seen.get? x = some f ∧ WINDOW ≤ now - f.1 := by
    intro hnone
    rw [SortedMap.get?_retain] at hnone
    cases hget : l.seen.get? x with
    | none => exact .inl rfl
    | some f =>
      rw [hget, Option.filter_some, ite_eq_right_iff] at hnone
      refine .inr ⟨f, rfl, not_lt.mp fun hlive => ?_⟩
      cases hnone (decide_eq_true hlive)
  cases h with
  | stays _ => exact .inr (.inl hx)
  | prunes _ _ => exact .inr (hretain hx)
  | @evicts k e _ _ _ _ =>
    rw [SortedMap.get?_erase] at hx
    by_cases hk : x = k
    · exact .inl (List.mem_singleton.mpr hk)
    · rw [if_neg hk] at hx
      exact .inr (hretain hx)

/-- There is room for `addr`. -/
theorem Rooms.length_insert (h : Rooms l addr now victims seen) (hlen : l.seen.length ≤ MAX_TRACKED_ADDRS)
    (e : Nat × UInt32) : (seen.insert addr e).length ≤ MAX_TRACKED_ADDRS := by
  have hgrows : (seen.insert addr e).length ≤ seen.length + 1 := SortedMap.length_insert_le
  cases h with
  | stays hroom =>
    cases hget : l.seen.get? addr with
    | none =>
      have hshort := hroom hget
      omega
    | some f =>
      rw [SortedMap.length_insert_of_get? hget]
      exact hlen
  | prunes _ hroom => omega
  | evicts _ _ _ hroom => omega

end RateLimit

/-! ## What was asked -/

/-- The requests of `addr` since it had to go, the newest first. -/
def since (addr : String) : List Limited → List (Counted Nat)
  | [] => []
  | .asked a at_ opened allowed :: log =>
    if a = addr then ⟨at_, opened, allowed⟩ :: since addr log else since addr log
  | .evicted a :: log => if a = addr then [] else since addr log

/-- Fewer than `2 ^ 32` requests come from one address in a window. -/
def Few (es : List Asking) : Prop := ∀ addr x,
  (es.filter fun e => e.addr = addr && (x ≤ e.now && e.now < x + WINDOW)).length < 2 ^ 32

theorem Few.of_append {es fs : List Asking} (h : Few (es ++ fs)) : Few es := by
  intro addr x
  have hall := h addr x
  rw [List.filter_append, List.length_append] at hall
  omega

namespace Limiter

variable {s t : Limiter} {e : Asking} {es : List Asking} {addr : String} {perMinute : UInt32}

/-- What a step does. -/
theorem of_step (hlen : s.limit.seen.length ≤ MAX_TRACKED_ADDRS) (h : s.step e = some t) :
    ∃ seen, s.clock ≤ e.now ∧ RateLimit.Rooms s.limit e.addr e.now e.victims seen ∧
      t.limit = ⟨s.limit.perMinute, seen.insert e.addr (RateLimit.count seen e.addr e.now)⟩ ∧
      t.clock = e.now ∧
      t.log = .asked e.addr e.now (RateLimit.count seen e.addr e.now).1
        (decide ((RateLimit.count seen e.addr e.now).2 ≤ s.limit.perMinute)) ::
          (e.victims.map .evicted ++ s.log) := by
  unfold step at h
  split_ifs at h with hclock
  obtain ⟨⟨limit, allowed⟩, hallow, rfl⟩ := Option.map_eq_some_iff.mp h
  obtain ⟨seen, hroom, heq⟩ := Option.map_eq_some_iff.mp hallow
  obtain ⟨rfl, rfl⟩ := Prod.mk.inj heq
  refine ⟨seen, not_lt.mp hclock, RateLimit.rooms_of_room hlen hroom, rfl, rfl, ?_⟩
  simp only [SortedMap.get?_insert, if_pos, Option.getD_some]

/-- What is left of an address's requests as others go. -/
theorem since_evicted (addr : String) (ks : List String) (log : List Limited) :
    since addr (ks.map .evicted ++ log) = if addr ∈ ks then [] else since addr log := by
  induction ks with
  | nil => simp
  | cons k ks ih =>
    simp only [List.map_cons, List.cons_append, since, ih, List.mem_cons, @eq_comm _ k]
    by_cases hk : addr = k
    · simp [hk]
    · simp [hk]

/-- The table has of each address what was asked since it had to go. -/
structure Tallied (perMinute : UInt32) (s : Limiter) : Prop where
  limit : s.limit.perMinute = perMinute
  room : s.limit.seen.length ≤ MAX_TRACKED_ADDRS
  past : ∀ addr, ∀ c ∈ since addr s.log, c.at_ ≤ s.clock
  windowed : ∀ addr, Windowed WINDOW perMinute.toNat (since addr s.log)
  held : ∀ addr e, s.limit.seen.get? addr = some e → e.1 ≤ s.clock ∧
    (∀ c ∈ since addr s.log, c.opened = e.1 ∨ c.opened + WINDOW ≤ e.1) ∧
    e.2.toNat = (inOpened e.1 (since addr s.log)).length
  gone : ∀ addr, s.limit.seen.get? addr = none → ∀ c ∈ since addr s.log, c.opened + WINDOW ≤ s.clock

theorem tallied_start (perMinute : UInt32) : Tallied perMinute (start perMinute) where
  limit := rfl
  room := Nat.zero_le _
  past addr c hc := by cases hc
  windowed addr := trivial
  held addr e he := by cases he
  gone addr _ c hc := by cases hc

theorem pos_window : 0 < WINDOW := by decide

theorem inOpened_eq_nil {cs : List (Counted Nat)} {x : Nat} (h : ∀ c ∈ cs, c.opened + WINDOW ≤ x) :
    inOpened x cs = [] := by
  refine List.filter_eq_nil_iff.mpr fun c hc => ?_
  have hle := h c hc
  have hpos := pos_window
  simp only [decide_eq_true_eq]
  omega

/-- What is counted for a request: the window is that of the last, or opens now, and fewer than
`per_minute` were in it exactly if the count is not past it. -/
theorem Tallied.count (h : Tallied perMinute s) {seen : SortedMap String (Nat × UInt32)}
    (hget : seen.get? addr = s.limit.seen.get? addr) {now : Nat} (hclock : s.clock ≤ now)
    (hfew : ∀ x, x ≤ now → now < x + WINDOW → (inOpened x (since addr s.log)).length + 1 < 2 ^ 32) :
    (RateLimit.count seen addr now).1 ≤ now ∧ now < (RateLimit.count seen addr now).1 + WINDOW ∧
      (∀ c ∈ since addr s.log, c.opened = (RateLimit.count seen addr now).1 ∨
        c.opened + WINDOW ≤ (RateLimit.count seen addr now).1) ∧
      (RateLimit.count seen addr now).2.toNat =
        (inOpened (RateLimit.count seen addr now).1 (since addr s.log)).length + 1 := by
  have hpos := pos_window
  have hone : (0 + 1 : UInt32).toNat = 1 := by decide
  cases he : s.limit.seen.get? addr with
  | none =>
    have hall : ∀ c ∈ since addr s.log, c.opened + WINDOW ≤ now := fun c hc =>
      (h.gone addr he c hc).trans hclock
    have hcount : RateLimit.count seen addr now = (now, 0 + 1) := by
      rw [RateLimit.count, hget, he]
      simp
    rw [hcount, inOpened_eq_nil hall]
    exact ⟨le_rfl, by omega, fun c hc => .inr (hall c hc), hone⟩
  | some e =>
    obtain ⟨hle, hopened, hn⟩ := h.held addr e he
    by_cases hold : now - e.1 ≥ WINDOW
    · have hall : ∀ c ∈ since addr s.log, c.opened + WINDOW ≤ now := by
        intro c hc
        rcases hopened c hc with heq | hbefore
        · omega
        · omega
      have hcount : RateLimit.count seen addr now = (now, 0 + 1) := by
        rw [RateLimit.count, hget, he]
        simp [hold]
      rw [hcount, inOpened_eq_nil hall]
      exact ⟨le_rfl, by omega, fun c hc => .inr (hall c hc), hone⟩
    · have hcount : RateLimit.count seen addr now = (e.1, e.2 + 1) := by
        rw [RateLimit.count, hget, he]
        simp [hold]
      have hin : now < e.1 + WINDOW := by omega
      have hbound := hfew e.1 (hle.trans hclock) hin
      have hadd : (e.2 + 1).toNat = (e.2.toNat + 1) % 2 ^ 32 := UInt32.toNat_add e.2 1
      rw [hcount]
      refine ⟨hle.trans hclock, hin, hopened, ?_⟩
      show (e.2 + 1).toNat = _
      rw [hadd, hn, Nat.mod_eq_of_lt hbound]

/-- What an address has been counted for, after a request. -/
theorem since_step {seen : SortedMap String (Nat × UInt32)} {opened : Nat} {allowed : Bool}
    (hrooms : RateLimit.Rooms s.limit e.addr e.now e.victims seen) (addr : String) :
    since addr (.asked e.addr e.now opened allowed :: (e.victims.map .evicted ++ s.log)) =
      if e.addr = addr then ⟨e.now, opened, allowed⟩ :: since addr s.log
      else if addr ∈ e.victims then [] else since addr s.log := by
  rw [since, since_evicted]
  split_ifs with haddr hmem hmem
  · exact absurd (haddr ▸ hmem) hrooms.self_notMem
  · rfl
  · rfl
  · rfl

theorem Tallied.of_step (h : Tallied perMinute s)
    (hfew : ∀ x, x ≤ e.now → e.now < x + WINDOW →
      (inOpened x (since e.addr s.log)).length + 1 < 2 ^ 32)
    (hstep : s.step e = some t) : Tallied perMinute t := by
  obtain ⟨seen, hclock, hrooms, hlimit, htime, hlog⟩ := Limiter.of_step h.room hstep
  obtain ⟨hle, hin, hopened, hn⟩ := h.count hrooms.get?_self hclock hfew
  generalize hcount : RateLimit.count seen e.addr e.now = counted at hle hin hopened hn hlimit hlog
  have hsince : ∀ addr, since addr t.log = if e.addr = addr then
      ⟨e.now, counted.1, decide (counted.2 ≤ s.limit.perMinute)⟩ :: since addr s.log
      else if addr ∈ e.victims then [] else since addr s.log := fun addr => by
    rw [hlog]
    exact since_step hrooms addr
  have hseen : ∀ addr, t.limit.seen.get? addr = if addr = e.addr then some counted
      else seen.get? addr := fun addr => by
    rw [hlimit]
    exact SortedMap.get?_insert seen e.addr addr counted
  have hallowed : decide (counted.2 ≤ s.limit.perMinute) = true ↔
      (inOpened counted.1 (since e.addr s.log)).length < perMinute.toNat := by
    rw [decide_eq_true_eq, h.limit, UInt32.le_iff_toNat_le, hn]
    omega
  refine ⟨?_, ?_, fun addr c hc => ?_, fun addr => ?_, fun addr f hf => ?_, fun addr hnone c hc => ?_⟩
  · rw [hlimit]
    exact h.limit
  · rw [hlimit]
    exact hrooms.length_insert h.room counted
  · rw [htime]
    rw [hsince] at hc
    split_ifs at hc with haddr hmem
    · rcases List.mem_cons.mp hc with rfl | hc
      · exact le_rfl
      · exact (h.past addr c hc).trans hclock
    · cases hc
    · exact (h.past addr c hc).trans hclock
  · rw [hsince]
    split_ifs with haddr hmem
    · rw [← haddr]
      exact ⟨hle, hin, fun d hd => ⟨(h.past _ d hd).trans hclock, hopened d hd⟩, hallowed,
        h.windowed _⟩
    · trivial
    · exact h.windowed addr
  · rw [htime, hsince]
    rw [hseen] at hf
    split_ifs at hf with haddr
    · obtain rfl := Option.some.inj hf
      rw [if_pos haddr.symm, haddr]
      refine ⟨hle, fun c hc => ?_, ?_⟩
      · rcases List.mem_cons.mp hc with rfl | hc
        · exact .inl rfl
        · exact hopened c hc
      · rw [hn]
        simp [inOpened]
    · obtain ⟨hget, hmem⟩ := hrooms.of_get? hf
      rw [if_neg (Ne.symm haddr), if_neg hmem]
      obtain ⟨hpast, hold, hm⟩ := h.held addr f hget
      exact ⟨hpast.trans hclock, hold, hm⟩
  · rw [htime]
    rw [hseen] at hnone
    split_ifs at hnone with haddr
    rw [hsince, if_neg (Ne.symm haddr)] at hc
    rcases hrooms.of_get?_none hnone with hmem | hget | ⟨f, hget, hpassed⟩
    · rw [if_pos hmem] at hc
      cases hc
    · split_ifs at hc with hmem
      · cases hc
      · exact (h.gone addr hget c hc).trans hclock
    · split_ifs at hc with hmem
      · cases hc
      · obtain ⟨-, hold, -⟩ := h.held addr f hget
        rcases hold c hc with heq | hbefore
        · omega
        · omega

/-! ## Any number of requests -/

/-- What was counted was asked. -/
theorem length_since_le (hrun : run step (start perMinute) es = some s) (addr : String)
    (p : Nat → Bool) : ((since addr s.log).filter fun c => p c.at_).length ≤
      (es.filter fun e => e.addr = addr && p e.now).length := by
  refine run_induction (motive := fun es s => ((since addr s.log).filter fun c => p c.at_).length ≤
    (es.filter fun e => e.addr = addr && p e.now).length) (Nat.zero_le _) ?_ hrun
  intro es e s t hrun hle hstep
  unfold step at hstep
  split_ifs at hstep with hclock
  obtain ⟨r, -, rfl⟩ := Option.map_eq_some_iff.mp hstep
  rw [List.filter_append, List.length_append, since, since_evicted]
  have hold : ((if addr ∈ e.victims then [] else since addr s.log).filter fun c => p c.at_).length ≤
      (es.filter fun e => e.addr = addr && p e.now).length := by
    split_ifs
    · exact Nat.zero_le _
    · exact hle
  split_ifs at hold ⊢ with haddr hmem hmem
  · by_cases hp : p e.now = true
    · simp [haddr, hp]
    · simp [hp]
  · by_cases hp : p e.now = true
    · simp only [List.filter_cons, hp, haddr]
      simpa using hold
    · simp only [List.filter_cons, hp]
      simpa using hold
  · exact hold.trans (Nat.le_add_right _ _)
  · exact hold.trans (Nat.le_add_right _ _)

/-- With few requests, the count of a window does not wrap. -/
theorem few_inOpened (h : Tallied perMinute s) (hrun : run step (start perMinute) es = some s)
    (hfew : Few (es ++ [e])) (x : Nat) (hx : x ≤ e.now) (hw : e.now < x + WINDOW) :
    (inOpened x (since e.addr s.log)).length + 1 < 2 ^ 32 := by
  have hall := hfew e.addr x
  rw [List.filter_append, List.length_append] at hall
  have hlast : ([e].filter fun d => d.addr = e.addr && (x ≤ d.now && d.now < x + WINDOW)).length = 1 := by
    simp [hx, hw]
  have hasked := length_since_le hrun e.addr fun n => x ≤ n && n < x + WINDOW
  have hinside : (inOpened x (since e.addr s.log)).length ≤
      ((since e.addr s.log).filter fun c => x ≤ c.at_ && c.at_ < x + WINDOW).length := by
    rw [inOpened, ← List.countP_eq_length_filter, ← List.countP_eq_length_filter]
    refine List.countP_mono_left fun c hc hopened => ?_
    obtain ⟨hle, hlt⟩ := (h.windowed e.addr).inside hc
    rw [of_decide_eq_true hopened] at hle hlt
    simp [hle, hlt]
  omega

theorem tallied_of_run (hrun : run step (start perMinute) es = some s) (hfew : Few es) :
    Tallied perMinute s := by
  refine run_induction (motive := fun es s => run step (start perMinute) es = some s → Few es →
    Tallied perMinute s) (fun _ _ => tallied_start perMinute) ?_ hrun hrun hfew
  intro es e s t hrun ih hstep _ hfew
  have htallied := ih hrun hfew.of_append
  exact htallied.of_step (few_inOpened htallied hrun hfew) hstep

/-- A request can always be made. -/
theorem exists_step (s : Limiter) (addr : String) {now : Nat} (hclock : s.clock ≤ now) :
    ∃ victims t, s.step ⟨addr, now, victims⟩ = some t := by
  have hroom : ∃ victims seen, s.limit.room addr now victims = some seen := by
    unfold RateLimit.room
    split_ifs
    · exact SortedMap.exists_evict Prod.fst (by decide) _
    · exact ⟨[], _, if_pos rfl⟩
  obtain ⟨victims, seen, hseen⟩ := hroom
  refine ⟨victims, ?_⟩
  rw [step, if_neg (not_lt.mpr hclock), RateLimit.allow, hseen]
  exact ⟨_, rfl⟩

end Limiter

/-- In every run with a clock that never goes back, and fewer than `2 ^ 32` requests from one
address in a window: the table has room; since an address had to go, no window allows more than
`per_minute` of its requests, and no minute more than twice as many; an address goes with its window
open only where every window is open and none is older; and a request is refused exactly if
`per_minute` came before it in its window. -/
theorem rate_limited (perMinute : UInt32) (es : List Asking) (s : Limiter)
    (hrun : run Limiter.step (.start perMinute) es = some s) (hfew : Few es) :
    s.limit.seen.length ≤ MAX_TRACKED_ADDRS ∧
    (∀ addr, Windowed WINDOW perMinute.toNat (since addr s.log) ∧
      (∀ x, ((inOpened x (since addr s.log)).filter (·.allowed)).length ≤ perMinute.toNat) ∧
      ∀ x, ((since addr s.log).filter fun c =>
        c.allowed && (decide (x ≤ c.at_) && decide (c.at_ ≤ x + WINDOW))).length ≤
          2 * perMinute.toNat) ∧
    ∀ e t, s.step e = some t →
      (∀ k, k ∈ e.victims ↔ t.limit.seen.get? k = none ∧
        ∃ f, s.limit.seen.get? k = some f ∧ e.now - f.1 < WINDOW) ∧
      (∀ k ∈ e.victims, ∀ f, s.limit.seen.get? k = some f →
        ∀ x g, s.limit.seen.get? x = some g → e.now - g.1 < WINDOW ∧ f.1 ≤ g.1) ∧
      (Few (es ++ [e]) → ∃ opened allowed,
        t.log = .asked e.addr e.now opened allowed :: (e.victims.map .evicted ++ s.log) ∧
        (allowed = false ↔
          perMinute.toNat ≤ (inOpened opened (since e.addr s.log)).length)) := by
  have htallied := Limiter.tallied_of_run hrun hfew
  refine ⟨htallied.room, fun addr => ⟨htallied.windowed addr, (htallied.windowed addr).length_allowed,
    (htallied.windowed addr).length_between⟩, fun e t hstep => ?_⟩
  obtain ⟨seen, hclock, hrooms, hlimit, -, hlog⟩ := Limiter.of_step htallied.room hstep
  have hseen : ∀ k, t.limit.seen.get? k = if k = e.addr then
      some (RateLimit.count seen e.addr e.now) else seen.get? k := fun k => by
    rw [hlimit]
    exact SortedMap.get?_insert seen e.addr k _
  refine ⟨fun k => ⟨fun hk => ?_, fun hgone => ?_⟩, fun k hk f hf x g hg => ?_, fun hmore => ?_⟩
  · obtain ⟨f, hf, hnone, hall⟩ := hrooms.of_mem hk
    have hne : k ≠ e.addr := fun heq => hrooms.self_notMem (heq ▸ hk)
    rw [hseen, if_neg hne]
    exact ⟨hnone, f, hf, (hall k f hf).1⟩
  · obtain ⟨hnone, f, hf, hopen⟩ := hgone
    rw [hseen] at hnone
    split_ifs at hnone with hne
    rcases hrooms.of_get?_none hnone with hk | hnew | ⟨g, hg, hpassed⟩
    · exact hk
    · rw [hnew] at hf
      cases hf
    · rw [hf] at hg
      obtain rfl := Option.some.inj hg
      omega
  · obtain ⟨f', hf', -, hall⟩ := hrooms.of_mem hk
    rw [hf] at hf'
    obtain rfl := Option.some.inj hf'
    exact hall x g hg
  · refine ⟨_, _, hlog, ?_⟩
    obtain ⟨-, -, -, hn⟩ := htallied.count hrooms.get?_self hclock
      (Limiter.few_inOpened htallied hrun hmore)
    rw [decide_eq_false_iff_not, htallied.limit, UInt32.le_iff_toNat_le, hn]
    omega

/-! ## A crowd -/

section Sample

/-- More addresses than the table has room for. -/
def crowd : List String :=
  (List.range (MAX_TRACKED_ADDRS + 1)).map fun n => String.ofList (List.replicate n '1')

theorem nodup_crowd : crowd.Nodup := by
  refine List.nodup_range.map fun m n h => ?_
  have hlen := congrArg List.length (String.ofList_injective h)
  rwa [List.length_replicate, List.length_replicate] at hlen

/-- Each address asks, all at one time. -/
theorem exists_run_asking (perMinute : UInt32) (addrs : List String) : ∃ es s,
    run Limiter.step (.start perMinute) es = some s ∧ s.clock ≤ 5 ∧ es.map (·.addr) = addrs ∧
      ∀ e ∈ es, e.now = 5 := by
  induction addrs using List.reverseRecOn with
  | nil => exact ⟨[], _, rfl, Nat.zero_le 5, rfl, nofun⟩
  | append_singleton addrs addr ih =>
    obtain ⟨es, s, hrun, hclock, haddrs, hnow⟩ := ih
    obtain ⟨victims, t, ht⟩ := Limiter.exists_step s addr hclock
    refine ⟨es ++ [⟨addr, 5, victims⟩], t, run_concat.mpr ⟨s, hrun, ht⟩, ?_, by simp [haddrs], ?_⟩
    · simp only [Limiter.step] at ht
      split_ifs at ht
      obtain ⟨-, -, rfl⟩ := Option.map_eq_some_iff.mp ht
      exact le_rfl
    · simpa [or_imp, forall_and] using hnow

/-- Where none had to go, the table has all that asked. -/
theorem mem_keys_of_run {perMinute : UInt32} {es : List Asking} {s : Limiter}
    (hrun : run Limiter.step (.start perMinute) es = some s)
    (hes : ∀ e ∈ es, e.now = 5 ∧ e.victims = []) :
    s.limit.seen.length ≤ MAX_TRACKED_ADDRS ∧ (∀ k f, s.limit.seen.get? k = some f → f.1 = 5) ∧
      ∀ e ∈ es, e.addr ∈ s.limit.seen.keys := by
  refine run_induction (motive := fun es s => (∀ e ∈ es, e.now = 5 ∧ e.victims = []) →
    s.limit.seen.length ≤ MAX_TRACKED_ADDRS ∧ (∀ k f, s.limit.seen.get? k = some f → f.1 = 5) ∧
      ∀ e ∈ es, e.addr ∈ s.limit.seen.keys) (fun _ => ⟨Nat.zero_le _, nofun, nofun⟩)
    (fun es e s t _ ih hstep hes => ?_) hrun hes
  obtain ⟨hlen, hfive, hkeys⟩ := ih fun e' he => hes e' (List.mem_append_left _ he)
  obtain ⟨hnow, hnone⟩ := hes e (List.mem_append_right _ List.mem_cons_self)
  obtain ⟨seen, -, hrooms, hlimit, -, -⟩ := Limiter.of_step hlen hstep
  have hseen : t.limit.seen = seen.insert e.addr (RateLimit.count seen e.addr e.now) := by
    rw [hlimit]
  refine ⟨hseen ▸ hrooms.length_insert hlen _, fun k f hk => ?_, fun e' he => ?_⟩
  · rw [hseen, SortedMap.get?_insert] at hk
    split_ifs at hk
    · obtain rfl := Option.some.inj hk
      cases hget : seen.get? e.addr with
      | none => simp [RateLimit.count, hget, hnow]
      | some f => simp [RateLimit.count, hget, hnow, hfive _ f (hrooms.of_get? hget).1, WINDOW]
    · exact hfive k f (hrooms.of_get? hk).1
  · rw [hseen, SortedMap.mem_keys_insert]
    rcases List.mem_append.mp he with he | he
    · refine .inr (SortedMap.containsKey_iff.mp ?_)
      have hold := SortedMap.containsKey_iff.mpr (hkeys e' he)
      cases hget : seen.get? e'.addr with
      | some f => simp [SortedMap.containsKey, hget]
      | none =>
        rcases hrooms.of_get?_none hget with hgone | hnew | ⟨f, hf, hpassed⟩
        · rw [hnone] at hgone
          cases hgone
        · simp [SortedMap.containsKey, hnew] at hold
        · rw [hnow, hfive _ f hf] at hpassed
          exact absurd hpassed (by decide)
    · exact .inl (congrArg Asking.addr (List.mem_singleton.mp he))

/-- One address too many: another goes, whose window is open. -/
theorem rate_limited_sample : ∃ es e s t, run Limiter.step (.start 1) es = some s ∧
    s.step e = some t ∧ e.victims ≠ [] ∧ t.limit.seen.length ≤ MAX_TRACKED_ADDRS ∧
      ∀ k ∈ e.victims, t.limit.seen.get? k = none ∧
        ∃ f, s.limit.seen.get? k = some f ∧ e.now - f.1 < WINDOW := by
  obtain ⟨es, u, hrun, -, haddrs, hnow⟩ := exists_run_asking 1 crowd
  have hlen : es.length = MAX_TRACKED_ADDRS + 1 := by
    rw [← List.length_map (·.addr), haddrs, crowd, List.length_map, List.length_range]
  have hfew : Few es := fun _ _ => (List.length_filter_le _ _).trans_lt (by rw [hlen]; decide)
  obtain ⟨e, he, hvictims⟩ : ∃ e ∈ es, e.victims ≠ [] := by
    by_contra hall
    simp only [not_exists, not_and, not_not] at hall
    obtain ⟨hroom, -, hkeys⟩ := mem_keys_of_run hrun fun e he => ⟨hnow e he, hall e he⟩
    have hsub : crowd ⊆ u.limit.seen.keys := by
      rw [← haddrs]
      exact fun k hk => by
        obtain ⟨e, he, rfl⟩ := List.mem_map.mp hk
        exact hkeys e he
    have hmany := (nodup_crowd.subperm hsub).length_le
    rw [← haddrs, List.length_map, hlen, SortedMap.keys, List.length_map] at hmany
    exact absurd (hmany.trans hroom) (Nat.not_succ_le_self _)
  obtain ⟨before, after, rfl⟩ := List.append_of_mem he
  obtain ⟨s, hs, hrest⟩ := run_append.mp hrun
  obtain ⟨t, ht, -⟩ := run_cons.mp hrest
  have hmore : Few (before ++ [e]) :=
    (show Few (before ++ [e] ++ after) by simpa using hfew).of_append
  obtain ⟨-, -, hsteps⟩ := rate_limited 1 before s hs hfew.of_append
  refine ⟨before, e, s, t, hs, ht, hvictims, ?_, fun k hk => ((hsteps e t ht).1 k).mp hk⟩
  exact (rate_limited 1 (before ++ [e]) t (run_concat.mpr ⟨s, hs, ht⟩) hmore).1

end Sample

end Wires
