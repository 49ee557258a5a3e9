import Wires.Impl.InboxLoop
import Wires.Proof.Mailbox

/-!
# A catch-up ends

A round takes out of the host's queue what its batch has in time by the caller's
clock (`of_round`), for the caller stores it and names it in its ack. So a round
whose full batch holds such a message leaves the queue shorter, and a catch-up
whose full batches all do ends, within one round more than were queued
(`fetchFrom_isSome`). What is queued then was out of time, by the one clock or the
other, and what is not any longer is in the mailbox, or was swept (`caught_up`).
-/

namespace Wires

/-! ## A store -/

namespace Mailbox

variable {b : Mailbox} {id : PushId}

theorem storeOne_ids (s : Mailbox × Stored) (m : PushMessage) :
    (storeOne s m).2.ids = s.2.ids ++ [m.id] := by
  unfold storeOne
  dsimp only
  split_ifs <;> rfl

theorem holds_storeOne {s : Mailbox × Stored} {m : PushMessage}
    (h : id = m.id ∨ s.1.holds id = true) : (storeOne s m).1.holds id = true := by
  unfold storeOne
  dsimp only
  split_ifs with hm
  · rcases h with rfl | h
    · exact hm
    · exact h
  · exact holds_put.mpr h

theorem foldl_storeOne_ids (s : Mailbox × Stored) (messages : List PushMessage) :
    (messages.foldl storeOne s).2.ids = s.2.ids ++ messages.map (·.id) := by
  induction messages generalizing s with
  | nil => exact (List.append_nil _).symm
  | cons m messages ih => rw [List.foldl_cons, ih, storeOne_ids, List.map_cons, List.append_assoc]; rfl

theorem holds_foldl_storeOne {s : Mailbox × Stored} {messages : List PushMessage}
    (h : id ∈ messages.map (·.id) ∨ s.1.holds id = true) :
    (messages.foldl storeOne s).1.holds id = true := by
  induction messages generalizing s with
  | nil => exact h.resolve_left nofun
  | cons m messages ih =>
    rw [List.foldl_cons]
    refine ih ?_
    rcases h with h | h
    · rcases List.mem_cons.mp h with h | h
      · exact .inr (holds_storeOne (.inl h))
      · exact .inl h
    · exact .inr (holds_storeOne (.inr h))

theorem evictOne_ids (s : Mailbox × Stored) (x : PushId) : (evictOne s x).2.ids = s.2.ids := by
  unfold evictOne
  split <;> rfl

theorem holds_evictOne (s : Mailbox × Stored) (x : PushId) :
    (evictOne s x).1.holds id = s.1.holds id := by
  unfold evictOne
  split
  · rfl
  · rename_i hmark
    exact holds_markRead hmark

theorem foldl_evictOne_ids (s : Mailbox × Stored) (xs : List PushId) :
    (xs.foldl evictOne s).2.ids = s.2.ids := by
  induction xs generalizing s with
  | nil => rfl
  | cons x xs ih => exact (ih (evictOne s x)).trans (evictOne_ids s x)

theorem holds_foldl_evictOne (s : Mailbox × Stored) (xs : List PushId) :
    (xs.foldl evictOne s).1.holds id = s.1.holds id := by
  induction xs generalizing s with
  | nil => rfl
  | cons x xs ih => exact (ih (evictOne s x)).trans (holds_evictOne s x)

theorem makeRoom_ids (s : Mailbox × Stored) : (makeRoom s).2.ids = s.2.ids := by
  have hfold := foldl_evictOne_ids s (toEvict s.1.unread.values)
  unfold makeRoom
  generalize (toEvict s.1.unread.values).foldl evictOne s = p at hfold ⊢
  exact hfold

theorem holds_makeRoom (s : Mailbox × Stored) : (makeRoom s).1.holds id = s.1.holds id := by
  rw [← holds_foldl_evictOne s (toEvict s.1.unread.values)]
  unfold makeRoom
  generalize (toEvict s.1.unread.values).foldl evictOne s = p
  dsimp only
  split_ifs <;> rfl

/-- A store names every message of its batch. -/
theorem store_ids (b : Mailbox) (messages : List PushMessage) :
    (b.store messages).2.ids = messages.map (·.id) := by
  have hfold : (messages.foldl storeOne (b, .none)).2.ids = messages.map (·.id) :=
    (foldl_storeOne_ids (b, .none) messages).trans (List.nil_append _)
  unfold store
  dsimp only
  split_ifs
  · exact (makeRoom_ids _).trans hfold
  · exact hfold

/-- It holds them then, and what it held. -/
theorem holds_store {messages : List PushMessage}
    (h : id ∈ messages.map (·.id) ∨ b.holds id = true) : (b.store messages).1.holds id = true := by
  have hfold : (messages.foldl storeOne (b, .none)).1.holds id = true := holds_foldl_storeOne h
  unfold store
  dsimp only
  split_ifs
  · exact (holds_makeRoom _).trans hfold
  · exact hfold

end Mailbox

/-! ## A round -/

namespace CatchUp

variable {s s' : CatchUp} {host me : NodeId} {r : FetchRound} {rs : List FetchRound} {e : Entry}
  {q : Queue} {times : List Int64}

/-- The queue is sound, and what is in it for `me` is from the host. -/
structure Honest (host me : NodeId) (q : Queue) : Prop where
  sound : q.Sound QUEUE_PER_RECIPIENT
  sender : ∀ e ∈ q.of me, e.message.sender = host

/-- Whether a message outlasts sweeps. -/
def outlasts (times : List Int64) (e : Entry) : Bool := times.all fun t => !e.message.isExpired t

theorem of_sweeps (q : Queue) (times : List Int64) :
    (sweeps q times).of me = (q.of me).filter (outlasts times) := by
  induction times generalizing q with
  | nil => exact (List.filter_eq_self.mpr fun _ _ => rfl).symm
  | cons t times ih =>
    show (sweeps (q.expire t).2 times).of me = _
    rw [ih, Queue.of_expire, List.filter_filter]
    refine List.filter_congr fun e _ => ?_
    rw [outlasts, outlasts, List.all_cons, Bool.and_comm]

theorem sound_sweeps (h : q.Sound QUEUE_PER_RECIPIENT) :
    (sweeps q times).Sound QUEUE_PER_RECIPIENT := by
  induction times generalizing q with
  | nil => exact h
  | cons t times ih => exact ih h.expired.1

/-- The ids the caller acknowledges. -/
def acked (s : CatchUp) (host me : NodeId) (r : FetchRound) : List PushId :=
  (acceptable (s.batch me r) host me r.readMs).map (·.id)

theorem of_round : (s.round host me r).queue.of me = (s.queue.of me).filter fun e =>
    (outlasts r.sweeps e && outlasts r.sweepsAfter e) && !(s.acked host me r).contains e.message.id := by
  show ((sweeps (sweeps s.queue r.sweeps) r.sweepsAfter).remove me
    (s.box.store (acceptable (s.batch me r) host me r.readMs)).2.ids).2.of me = _
  rw [Queue.of_remove, if_pos rfl, of_sweeps, of_sweeps, List.filter_filter, List.filter_filter,
    Mailbox.store_ids]
  refine List.filter_congr fun e _ => ?_
  unfold acked
  ac_rfl

theorem holds_round {id : PushId} (h : id ∈ s.acked host me r ∨ s.box.holds id = true) :
    (s.round host me r).box.holds id = true := Mailbox.holds_store h

theorem Honest.round (h : Honest host me s.queue) : Honest host me (s.round host me r).queue where
  sound := (sound_sweeps (sound_sweeps h.sound)).removed.1
  sender := fun e he => h.sender e (List.mem_of_mem_filter (of_round ▸ he))

/-- A message is in the batch that is in time as the host looks, if the batch is not full. -/
theorem mem_batch (he : e ∈ s.queue.of me) (hswept : outlasts r.sweeps e = true)
    (hlook : e.message.isExpired r.lookMs = false) (hfull : (s.batch me r).length < MAX_BATCH) :
    e.message ∈ s.batch me r := by
  unfold batch Queue.pending at hfull ⊢
  rw [List.length_map, List.length_take] at hfull
  rw [List.take_of_length_le (by omega)]
  refine List.mem_map_of_mem (List.mem_filter.mpr ⟨?_, by simp [hlook]⟩)
  rw [of_sweeps]
  exact List.mem_filter.mpr ⟨he, hswept⟩

theorem exists_of_mem_batch {m : PushMessage} (hm : m ∈ s.batch me r) :
    ∃ e ∈ s.queue.of me, e.message = m := by
  obtain ⟨e, he, rfl⟩ := List.mem_map.mp hm
  have hof := List.mem_of_mem_filter (List.mem_of_mem_take he)
  rw [of_sweeps] at hof
  exact ⟨e, List.mem_of_mem_filter hof, rfl⟩

/-- The caller acknowledges what its clock has in time, of what an honest host hands it. -/
theorem Honest.mem_acked (h : Honest host me s.queue) (he : e ∈ s.queue.of me)
    (hm : e.message ∈ s.batch me r) (hread : e.message.isExpired r.readMs = false) :
    e.message.id ∈ s.acked host me r := by
  refine List.mem_map_of_mem (List.mem_filter.mpr ⟨hm, ?_⟩)
  simp [h.sender e he, h.sound.recipient he, hread]

/-- A round takes out what it handed over that the caller's clock has in time. -/
theorem Honest.length_round_lt (h : Honest host me s.queue) {m : PushMessage}
    (hm : m ∈ s.batch me r) (hread : m.isExpired r.readMs = false) :
    ((s.round host me r).queue.of me).length < (s.queue.of me).length := by
  obtain ⟨e, he, rfl⟩ := exists_of_mem_batch hm
  rw [of_round, List.length_filter_lt_length_iff_exists]
  refine ⟨e, he, ?_⟩
  have hin := h.mem_acked he hm hread
  simp [hin]

theorem length_round_le :
    ((s.round host me r).queue.of me).length ≤ (s.queue.of me).length := by
  rw [of_round]
  exact List.length_filter_le _ _

/-! ## The loop -/

/-- Each full batch handed over holds a message that the caller's clock has in time. -/
def InTime (host me : NodeId) : CatchUp → List FetchRound → Prop
  | _, [] => True
  | s, r :: rs => (s.batch me r).length ≥ MAX_BATCH →
    (∃ m ∈ s.batch me r, m.isExpired r.readMs = false) ∧ InTime host me (s.round host me r) rs

theorem Honest.fetchFrom_isSome (h : Honest host me s.queue) (htime : InTime host me s rs)
    (hlen : (s.queue.of me).length < rs.length) : (s.fetchFrom host me rs).isSome := by
  induction rs generalizing s with
  | nil => cases hlen
  | cons r rs ih =>
    rw [fetchFrom]
    split_ifs with hfull
    · obtain ⟨⟨m, hm, hread⟩, htime⟩ := htime hfull
      have hlt := h.length_round_lt hm hread
      rw [List.length_cons] at hlen
      exact ih h.round htime (by omega)
    · rfl

/-- The rounds before the last one handed over full batches. -/
theorem rounds_of_fetchFrom (hs : s.fetchFrom host me rs = some s') : ∃ earlier r later s₁,
    rs = earlier ++ r :: later ∧ s₁ = earlier.foldl (fun s r => s.round host me r) s ∧
      (s₁.batch me r).length < MAX_BATCH ∧ s' = s₁.round host me r := by
  induction rs generalizing s with
  | nil => cases hs
  | cons r rs ih =>
    rw [fetchFrom] at hs
    split_ifs at hs with hfull
    · obtain ⟨earlier, r', later, s₁, rfl, hs₁, hlast, rfl⟩ := ih hs
      exact ⟨r :: earlier, r', later, s₁, rfl, hs₁, hlast, rfl⟩
    · cases hs
      exact ⟨[], r, rs, s, rfl, rfl, by omega, rfl⟩

/-- What was queued is still queued, or is in the mailbox, or was swept. -/
def Kept (s : CatchUp) (me : NodeId) (swept : List Int64) (s' : CatchUp) : Prop :=
  (∀ e ∈ s'.queue.of me, e ∈ s.queue.of me) ∧
  (∀ e ∈ s.queue.of me, e ∈ s'.queue.of me ∨ s'.box.holds e.message.id = true ∨
    outlasts swept e = false) ∧
  ∀ id, s.box.holds id = true → s'.box.holds id = true

theorem kept_round : Kept s me (r.sweeps ++ r.sweepsAfter) (s.round host me r) := by
  refine ⟨fun e he => List.mem_of_mem_filter (of_round ▸ he), fun e he => ?_,
    fun id hid => holds_round (.inr hid)⟩
  have happend : outlasts (r.sweeps ++ r.sweepsAfter) e =
      (outlasts r.sweeps e && outlasts r.sweepsAfter e) := List.all_append
  rw [of_round, List.mem_filter, happend]
  by_cases hacked : e.message.id ∈ s.acked host me r
  · exact .inr (.inl (holds_round (.inl hacked)))
  · cases hswept : outlasts r.sweeps e && outlasts r.sweepsAfter e with
    | true => exact .inl ⟨he, by simp [hacked]⟩
    | false => exact .inr (.inr rfl)

theorem Kept.trans {t : CatchUp} {swept swept' : List Int64} (h : Kept s me swept t)
    (h' : Kept t me swept' s') : Kept s me (swept ++ swept') s' := by
  obtain ⟨hsub, hkept, hholds⟩ := h
  obtain ⟨hsub', hkept', hholds'⟩ := h'
  refine ⟨fun e he => hsub e (hsub' e he), fun e he => ?_, fun id hid => hholds' id (hholds id hid)⟩
  have happend : outlasts (swept ++ swept') e = (outlasts swept e && outlasts swept' e) :=
    List.all_append
  rw [happend, Bool.and_eq_false_iff]
  rcases hkept e he with he | he | he
  · exact (hkept' e he).imp_right fun h => h.imp_right .inr
  · exact .inr (.inl (hholds' _ he))
  · exact .inr (.inr (.inl he))

theorem kept_rounds : Kept s me (rs.flatMap fun r => r.sweeps ++ r.sweepsAfter)
    (rs.foldl (fun s r => s.round host me r) s) := by
  induction rs generalizing s with
  | nil => exact ⟨fun _ he => he, fun _ he => .inl he, fun _ hid => hid⟩
  | cons r rs ih => exact kept_round.trans ih

theorem Honest.rounds (h : Honest host me s.queue) :
    Honest host me (rs.foldl (fun s r => s.round host me r) s).queue := by
  induction rs generalizing s with
  | nil => exact h
  | cons r rs ih => exact ih h.round

/-- After a round that was not full, what is queued is out of time by one clock or the other. -/
theorem Honest.expired_of_round (h : Honest host me s.queue)
    (hfull : (s.batch me r).length < MAX_BATCH) (he : e ∈ (s.round host me r).queue.of me) :
    e.message.isExpired r.lookMs = true ∨ e.message.isExpired r.readMs = true := by
  rw [of_round, List.mem_filter, Bool.and_eq_true, Bool.and_eq_true] at he
  obtain ⟨hof, ⟨hswept, -⟩, hacked⟩ := he
  by_contra hno
  rw [not_or, Bool.not_eq_true, Bool.not_eq_true] at hno
  have hin := h.mem_acked hof (mem_batch hof hswept hno.1 hfull) hno.2
  simp [hin] at hacked

end CatchUp

/-- **A catch-up ends, and brings what both clocks have in time.** From every queue of an honest host
and for every reading of the two clocks, the sweeps of the host's included: a round whose batch holds a
message that the caller's clock has in time leaves the queue shorter, so a catch-up whose full batches
all hold one ends within one round more than were queued; and when it has ended, what is still queued
for the caller was out of time by the host's clock as it looked last, or by the caller's as it read what
it was handed, and what is not any longer is in the mailbox or was swept. -/
theorem caught_up (s : CatchUp) (host me : NodeId) (rs : List FetchRound)
    (hsound : s.queue.Sound QUEUE_PER_RECIPIENT)
    (hhost : ∀ e ∈ s.queue.of me, e.message.sender = host) :
    (∀ earlier r later s₁, rs = earlier ++ r :: later →
      s₁ = earlier.foldl (fun s r => s.round host me r) s →
      ((s₁.round host me r).queue.of me).length ≤ (s₁.queue.of me).length ∧
      ((∃ m ∈ s₁.batch me r, m.isExpired r.readMs = false) →
        ((s₁.round host me r).queue.of me).length < (s₁.queue.of me).length)) ∧
    (CatchUp.InTime host me s rs → (s.queue.of me).length < rs.length →
      (s.fetchFrom host me rs).isSome) ∧
    ∀ s', s.fetchFrom host me rs = some s' → ∃ earlier r later, rs = earlier ++ r :: later ∧
      (∀ e ∈ s'.queue.of me,
        e.message.isExpired r.lookMs = true ∨ e.message.isExpired r.readMs = true) ∧
      ∀ e ∈ s.queue.of me, e ∈ s'.queue.of me ∨ s'.box.holds e.message.id = true ∨
        ∃ r' ∈ earlier ++ [r], ∃ t ∈ r'.sweeps ++ r'.sweepsAfter, e.message.isExpired t = true := by
  have h : CatchUp.Honest host me s.queue := ⟨hsound, hhost⟩
  refine ⟨fun earlier r later s₁ _ hs₁ => ?_, h.fetchFrom_isSome, fun s' hs' => ?_⟩
  · subst hs₁
    exact ⟨CatchUp.length_round_le, fun ⟨m, hm, hread⟩ => h.rounds.length_round_lt hm hread⟩
  · obtain ⟨earlier, r, later, s₁, heq, rfl, hfull, rfl⟩ := CatchUp.rounds_of_fetchFrom hs'
    refine ⟨earlier, r, later, heq, fun e he => h.rounds.expired_of_round hfull he, fun e he => ?_⟩
    have hkept : CatchUp.Kept s me _ ((earlier ++ [r]).foldl (fun s r => s.round host me r) s) :=
      CatchUp.kept_rounds
    rw [List.foldl_append] at hkept
    refine (hkept.2.1 e he).imp_right fun hrest => hrest.imp_right fun hswept => ?_
    obtain ⟨t, ht, hexpired⟩ := List.all_eq_false.mp hswept
    rw [Bool.not_eq_true, Bool.not_eq_false'] at hexpired
    obtain ⟨r', hr', ht⟩ := List.mem_flatMap.mp ht
    exact ⟨r', hr', t, ht, hexpired⟩

/-! ## Two clocks -/

section Sample

/-- The host's clock has it in time, or not; the caller's has. -/
def sampleCatchUp : CatchUp :=
  ⟨⟨(∅ : SortedMap NodeId (List Entry)).insert (Bytes.fill 32 4) [⟨sampleMessage, none, none⟩]⟩,
    ⟨∅, ∅, []⟩, 0⟩

theorem CatchUp.length_batch_le {s : CatchUp} {me : NodeId} {lookMs readMs : Int64} :
    (s.batch me ⟨[], lookMs, [], readMs⟩).length ≤ (s.queue.of me).length := by
  show (((s.queue.of me).filter _ |>.take _).map _).length ≤ _
  rw [List.length_map, List.length_take]
  exact (Nat.min_le_right _ _).trans (List.length_filter_le _ _)

/-- Where no batch is full, nothing is asked of the clocks. -/
theorem CatchUp.inTime_of_short {s : CatchUp} {host me : NodeId} {rs : List FetchRound}
    (h : ∀ r ∈ rs, (s.batch me r).length < MAX_BATCH) : s.InTime host me rs := by
  cases rs with
  | nil => trivial
  | cons r rs => exact fun hfull => absurd hfull (not_le.mpr (h r List.mem_cons_self))

/-- A full batch that the caller's clock has out of time is handed over again and again. -/
theorem CatchUp.stalls {s : CatchUp} {host me : NodeId} {lookMs readMs : Int64}
    (hfull : (s.batch me ⟨[], lookMs, [], readMs⟩).length ≥ MAX_BATCH)
    (hlate : ∀ e ∈ s.queue.of me, e.message.isExpired readMs = true) (n : Nat) :
    s.fetchFrom host me (List.replicate n ⟨[], lookMs, [], readMs⟩) = none := by
  induction n generalizing s with
  | zero => rfl
  | succ n ih =>
    have hacked : s.acked host me ⟨[], lookMs, [], readMs⟩ = [] := by
      refine List.map_eq_nil_iff.mpr (List.filter_eq_nil_iff.mpr fun m hm => ?_)
      obtain ⟨e, he, rfl⟩ := exists_of_mem_batch hm
      simp [hlate e he]
    have hof : (s.round host me ⟨[], lookMs, [], readMs⟩).queue.of me = s.queue.of me := by
      rw [of_round, hacked]
      exact List.filter_eq_self.mpr fun _ _ => rfl
    have hbatch : (s.round host me ⟨[], lookMs, [], readMs⟩).batch me ⟨[], lookMs, [], readMs⟩ =
        s.batch me ⟨[], lookMs, [], readMs⟩ := by
      show (((s.round host me ⟨[], lookMs, [], readMs⟩).queue.of me).filter _ |>.take _).map _ = _
      rw [hof]
      rfl
    rw [List.replicate_succ, fetchFrom, if_pos hfull]
    refine ih (by rw [hbatch]; exact hfull) fun e he => hlate e (hof ▸ he)

/-- As many messages as fill a batch, out of time from 100 on. -/
def sampleBacklog : CatchUp :=
  ⟨⟨(∅ : SortedMap NodeId (List Entry)).insert (Bytes.fill 32 4) ((List.range MAX_BATCH).map fun i =>
    ⟨{ sampleMessage with id := Bytes.fill 16 (UInt8.ofNat i) }, none, none⟩)⟩, ⟨∅, ∅, []⟩, 0⟩

theorem of_sampleBacklog : sampleBacklog.queue.of (Bytes.fill 32 4) = (List.range MAX_BATCH).map fun i =>
    ⟨{ sampleMessage with id := Bytes.fill 16 (UInt8.ofNat i) }, none, none⟩ := by
  rw [sampleBacklog, Queue.of_insert_map, if_pos rfl]

/-- Each is for the caller, of the host, and in time until then. -/
theorem of_mem_sampleBacklog {e : Entry} (he : e ∈ sampleBacklog.queue.of (Bytes.fill 32 4)) :
    e.message.sender = Bytes.fill 32 2 ∧ e.message.isExpired 10 = false ∧
      e.message.isExpired 100 = true := by
  rw [of_sampleBacklog] at he
  obtain ⟨i, -, rfl⟩ := List.mem_map.mp he
  exact ⟨rfl, rfl, rfl⟩

theorem sound_sampleBacklog : sampleBacklog.queue.Sound QUEUE_PER_RECIPIENT := by
  refine Queue.sound_empty.put (by decide) (by decide) fun e he => ?_
  obtain ⟨i, -, rfl⟩ := List.mem_map.mp he
  rfl

/-- The backlog is a full batch, and is fetched in two rounds. -/
theorem caught_up_sample : ∃ s', sampleBacklog.fetchFrom (Bytes.fill 32 2) (Bytes.fill 32 4)
    (List.replicate (MAX_BATCH + 1) ⟨[], 10, [], 10⟩) = some s' := by
  have hlen : (sampleBacklog.queue.of (Bytes.fill 32 4)).length = MAX_BATCH := by
    rw [of_sampleBacklog, List.length_map, List.length_range]
  obtain ⟨hshorter, hends, -⟩ := caught_up sampleBacklog (Bytes.fill 32 2) (Bytes.fill 32 4)
    (List.replicate (MAX_BATCH + 1) ⟨[], 10, [], 10⟩) sound_sampleBacklog fun e he =>
      (of_mem_sampleBacklog he).1
  refine Option.isSome_iff_exists.mp (hends ?_ ?_)
  · intro hfull
    obtain ⟨m, hm⟩ := List.exists_mem_of_length_pos (Nat.lt_of_lt_of_le (by decide) hfull)
    obtain ⟨e, he, rfl⟩ := CatchUp.exists_of_mem_batch hm
    have hlive : ∃ m ∈ sampleBacklog.batch (Bytes.fill 32 4) ⟨[], 10, [], 10⟩,
        m.isExpired 10 = false := ⟨_, hm, (of_mem_sampleBacklog he).2.1⟩
    refine ⟨hlive, CatchUp.inTime_of_short fun r hr => ?_⟩
    obtain rfl := List.eq_of_mem_replicate hr
    -- a round of messages in time leaves fewer queued
    have hfewer := (hshorter [] _ _ sampleBacklog rfl rfl).2 hlive
    rw [hlen] at hfewer
    exact CatchUp.length_batch_le.trans_lt hfewer
  · rw [hlen, List.length_replicate]
    exact Nat.lt_succ_self _

/-- A message that is out of time by the host's clock alone stays queued, and is not fetched; and where a
full batch is out of time by the caller's clock alone, the catch-up goes on for good. -/
theorem not_caught_up :
    (∃ s', sampleCatchUp.fetchFrom (Bytes.fill 32 2) (Bytes.fill 32 4) [⟨[], 100, [], 10⟩] = some s' ∧
      ⟨sampleMessage, none, none⟩ ∈ s'.queue.of (Bytes.fill 32 4) ∧
      acceptable [sampleMessage] (Bytes.fill 32 2) (Bytes.fill 32 4) 10 = [sampleMessage] ∧
      s'.box.holds sampleMessage.id = false) ∧
    ∀ n, sampleBacklog.fetchFrom (Bytes.fill 32 2) (Bytes.fill 32 4)
      (List.replicate n ⟨[], 10, [], 100⟩) = none := by
  constructor
  · have h : ∃ s', sampleCatchUp.fetchFrom (Bytes.fill 32 2) (Bytes.fill 32 4) [⟨[], 100, [], 10⟩] =
        some s' ∧ (s'.queue.of (Bytes.fill 32 4), s'.box.holds sampleMessage.id) =
          ([⟨sampleMessage, none, none⟩], false) := Option.map_eq_some_iff.mp (by decide)
    obtain ⟨s', hs', heq⟩ := h
    obtain ⟨hof, hholds⟩ := Prod.mk.inj heq
    exact ⟨s', hs', hof ▸ List.mem_singleton_self _, by decide, hholds⟩
  · exact CatchUp.stalls (by decide) fun e he => (of_mem_sampleBacklog he).2.2

end Sample

end Wires
