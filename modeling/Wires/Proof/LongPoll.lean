import Wires.Framework.Run
import Wires.Impl.LongPoll
import Wires.Proof.Delivery

/-!
# No wake-up is lost

A fetch that found nothing, and was not woken since, looked when what is queued
for it was not there yet, had expired, or is a message whose send is still to
notify (`Heard`): every step keeps that. So a message whose send has notified is
met by a fetch that is awake, and that comes to look by its own steps alone, if
its wait is not over first; what it answers then carries the message, unless a
whole batch is ahead of it (`never_missed`).
-/

namespace Wires

/-! ## What is queued -/

namespace Queue

variable {q : Queue} {node x : NodeId} {e e' : Entry} {now : Int64} {ids : List PushId} {cap : Nat}

theorem mem_of_insert (h : e' ∈ (q.insert e cap).2.of x) : e' ∈ q.of x ∨ e' = e := by
  have hof : (q.insert e cap).2.of x = q.of x ∨
      ∀ e' ∈ (q.insert e cap).2.of x, e' ∈ q.of x ++ [e] := by
    by_cases hx : x = e.message.recipient
    · right
      intro e' he'
      rw [Queue.insert] at he'
      split at he'
      · rw [of_insert_map, if_pos hx, ← hx] at he'
        exact List.mem_of_mem_tail he'
      · rw [of_insert_map, if_pos hx, ← hx] at he'
        exact he'
    · left
      rw [Queue.insert]
      split <;> rw [of_insert_map, if_neg hx]
  rcases hof with hof | hof
  · rw [hof] at h
    exact .inl h
  · simpa using hof e' h

theorem mem_of_remove (h : e ∈ (q.remove node ids).2.of x) : e ∈ q.of x := by
  rw [of_remove] at h
  split at h
  · rename_i hx
    rw [hx]
    exact List.mem_of_mem_filter h
  · exact h

theorem mem_of_purge (h : e ∈ (q.purge node).2.of x) : e ∈ q.of x := by
  rw [purge, of_erase_map] at h
  split at h
  · cases h
  · exact h

theorem mem_of_expire (h : e ∈ (q.expire now).2.of x) : e ∈ q.of x := by
  rw [of_expire] at h
  exact List.mem_of_mem_filter h

theorem pending_eq_nil {max : Nat} (hmax : 0 < max) (h : q.pending node now max = []) (he : e ∈ q.of node) :
    e.message.isExpired now = true := by
  by_contra hlive
  have hmem : e ∈ (q.of node).filter fun e => !e.message.isExpired now :=
    List.mem_filter.mpr ⟨he, by simpa using hlive⟩
  rw [pending, List.map_eq_nil_iff, List.take_eq_nil_iff] at h
  rcases h with h | h
  · omega
  · rw [h] at hmem
    cases hmem

end Queue

/-- The stages in which a fetch is armed. -/
def PollStage.armed : PollStage → Bool
  | .looks .. => true
  | .looked .. => true
  | .sleeps .. => true
  | _ => false

/-- The fetch is in its loop, for `node` and until `until_`, and has found nothing yet. -/
def PollStage.Polls (stage : PollStage) (node : NodeId) (until_ : Nat) : Prop :=
  stage = .arms node until_ ∨ stage = .looks node until_ ∨
    ∃ lookedMs, stage = .looked node until_ [] lookedMs ∨ stage = .sleeps node until_ lookedMs

/-- What the fetch has found or answers carries the message. -/
def PollStage.Carries (stage : PollStage) (node : NodeId) (e : Entry) : Prop :=
  ∃ batch, e.message ∈ batch ∧
    (stage = .delivers node batch ∨ ∃ until_ lookedMs, stage = .looked node until_ batch lookedMs)

/-- The fetch is in its loop, or carries the message, or is over, or answers with nothing, its wait
being over. -/
def PollStage.Answers (stage : PollStage) (node : NodeId) (until_ instant : Nat) (e : Entry) : Prop :=
  stage.Polls node until_ ∨ stage.Carries node e ∨ stage = .done ∨
    stage = .delivers node [] ∧ until_ ≤ instant

namespace LongPoll

variable {ι : Type} [DecidableEq ι] {s t : LongPoll ι} {ev : PollEvent ι}

/-! ## What a step does -/

/-- What a step of the tasks or of the clocks leaves. -/
inductive Steps (s : LongPoll ι) : LongPoll ι → Prop where
  | ticked (nowMs : Int64) {instant : Nat} (hle : s.instant ≤ instant) :
    Steps s { s with nowMs, instant }
  | queued {i : ι} {entry : Entry} (hi : s.sends i = .idle) : Steps s { s with
      queue := (s.queue.insert entry QUEUE_PER_RECIPIENT).2
      sends := Function.update s.sends i (.queued entry) }
  | notified {i : ι} {entry : Entry} (hi : s.sends i = .queued entry) : Steps s { s with
      arrived := s.arrived.notifyWaiters
      sends := Function.update s.sends i (.notified entry) }
  | taken {queue : Queue} (hsub : ∀ node, ∀ e ∈ queue.of node, e ∈ s.queue.of node) :
    Steps s { s with queue }
  | begins {i : ι} (node : NodeId) (until_ : Nat) (hi : s.fetches i = .idle) :
    Steps s (s.goes i (.arms node until_))
  | arms {i : ι} {node : NodeId} {until_ : Nat} (hi : s.fetches i = .arms node until_) :
    Steps s { s.goes i (.looks node until_) with arrived := s.arrived.enable i }
  | looks {i : ι} {node : NodeId} {until_ : Nat} (hi : s.fetches i = .looks node until_) :
    Steps s (s.goes i (.looked node until_ (s.queue.pending node s.nowMs MAX_BATCH) s.nowMs))
  | answers {i : ι} {node : NodeId} {until_ : Nat} {batch : List PushMessage} {lookedMs : Int64}
    (hi : s.fetches i = .looked node until_ batch lookedMs) (hends : batch ≠ [] ∨ until_ ≤ s.instant) :
    Steps s (s.leaves i (.delivers node batch))
  | sleeps {i : ι} {node : NodeId} {until_ : Nat} {lookedMs : Int64}
    (hi : s.fetches i = .looked node until_ [] lookedMs) :
    Steps s (s.goes i (.sleeps node until_ lookedMs))
  | wakes {i : ι} {node : NodeId} {until_ : Nat} {lookedMs : Int64}
    (hi : s.fetches i = .sleeps node until_ lookedMs) : Steps s (s.leaves i (.arms node until_))
  | acked {i : ι} {node : NodeId} {batch : List PushMessage} {queue : Queue}
    (hi : s.fetches i = .delivers node batch)
    (hsub : ∀ node, ∀ e ∈ queue.of node, e ∈ s.queue.of node) :
    Steps s { s.goes i .done with queue }
  | quits (i : ι) : Steps s (s.leaves i .done)

theorem steps (hs : s.step ev = some t) : Steps s t := by
  cases ev with
  | tick nowMs instant =>
    rw [LongPoll.step] at hs
    split at hs
    · rename_i hle
      cases hs
      exact .ticked nowMs hle
    · cases hs
  | enqueue i entry =>
    rw [LongPoll.step] at hs
    split at hs
    · rename_i hi
      cases hs
      exact .queued hi
    · cases hs
  | notify i =>
    rw [LongPoll.step] at hs
    split at hs
    · rename_i hi
      cases hs
      exact .notified hi
    · cases hs
  | delivered node ids =>
    cases hs
    exact .taken fun _ _ he => Queue.mem_of_remove he
  | dropQueue node =>
    cases hs
    exact .taken fun _ _ he => Queue.mem_of_purge he
  | sweep =>
    cases hs
    exact .taken fun _ _ he => Queue.mem_of_expire he
  | fetch i node waitMs =>
    rw [LongPoll.step] at hs
    split at hs
    · rename_i hi
      cases hs
      exact .begins node _ hi
    · cases hs
  | arm i =>
    rw [LongPoll.step] at hs
    split at hs
    · rename_i hi
      cases hs
      exact .arms hi
    · cases hs
  | look i =>
    rw [LongPoll.step] at hs
    split at hs
    · rename_i hi
      cases hs
      exact .looks hi
    · cases hs
  | settle i =>
    rw [LongPoll.step] at hs
    split at hs
    · rename_i node until_ batch lookedMs hi
      split at hs
      · rename_i hends
        cases hs
        exact .answers hi hends
      · rename_i hsleeps
        cases hs
        obtain rfl : batch = [] := not_not.mp (not_or.mp hsleeps).1
        exact .sleeps hi
    · cases hs
  | wake i =>
    rw [LongPoll.step] at hs
    split at hs
    · rename_i hi
      split at hs
      · cases hs
        exact .wakes hi
      · cases hs
    · cases hs
  | timeout i =>
    rw [LongPoll.step] at hs
    split at hs
    · rename_i hi
      split at hs
      · cases hs
        exact .wakes hi
      · cases hs
    · cases hs
  | ack i ids =>
    rw [LongPoll.step] at hs
    split at hs
    · rename_i hi
      cases hs
      exact .acked hi fun _ _ he => Queue.mem_of_remove he
    · cases hs
  | leave i =>
    cases hs
    exact .quits i

/-! ## Asleep -/

omit [DecidableEq ι] in
/-- A fetch for `node` found nothing when the clock read `lookedMs`, and was not woken since. -/
def Blind (s : LongPoll ι) (i : ι) (node : NodeId) (lookedMs : Int64) : Prop :=
  ∃ until_, (s.fetches i = .looked node until_ [] lookedMs ∨ s.fetches i = .sleeps node until_ lookedMs) ∧
    s.arrived i = some false

omit [DecidableEq ι] in
/-- Some send of the message is still to notify. -/
def Unsaid (s : LongPoll ι) (e : Entry) : Prop := ∃ j, s.sends j = .queued e

omit [DecidableEq ι] in
/-- Whatever is queued for a fetch that found nothing, it could not have found, or will be woken
for. -/
def Heard (s : LongPoll ι) : Prop :=
  ∀ i node lookedMs, s.Blind i node lookedMs →
    ∀ e ∈ s.queue.of node, e.message.isExpired lookedMs = false → s.Unsaid e

omit [DecidableEq ι] in
/-- What takes out of the queue, and wakes nobody. -/
theorem Heard.taken (h : s.Heard) {queue : Queue}
    (hsub : ∀ node, ∀ e ∈ queue.of node, e ∈ s.queue.of node) : Heard { s with queue } :=
  fun i node lookedMs hb e he => h i node lookedMs hb e (hsub node e he)

/-- A fetch that comes to a stage, where only the wakers of others are as they were. -/
theorem Heard.moves (h : s.Heard) {i : ι} {stage : PollStage} {arrived : Notify ι}
    (hstage : ∀ node until_ lookedMs, stage = .looked node until_ [] lookedMs ∨
      stage = .sleeps node until_ lookedMs → arrived i = some false →
        ∀ e ∈ s.queue.of node, e.message.isExpired lookedMs = false → s.Unsaid e)
    (harrived : ∀ j, j ≠ i → arrived j = s.arrived j) :
    Heard { s.goes i stage with arrived } := by
  rintro j node lookedMs ⟨until_, hj, hwoken⟩
  by_cases hji : j = i
  · subst hji
    exact hstage node until_ lookedMs (by simpa [goes] using hj) hwoken
  · refine h j node lookedMs ⟨until_, ?_, ?_⟩
    · simpa [goes, hji] using hj
    · rw [← harrived j hji]
      exact hwoken

/-- A fetch that comes to a stage in which it has not found nothing. -/
theorem Heard.leaves (h : s.Heard) {i : ι} {stage : PollStage}
    (hstage : ∀ node until_ lookedMs, ¬(stage = .looked node until_ [] lookedMs ∨
      stage = .sleeps node until_ lookedMs)) : (s.leaves i stage).Heard :=
  h.moves (fun node until_ lookedMs hs => absurd hs (hstage node until_ lookedMs))
    fun _ hji => Function.update_of_ne hji ..

theorem Heard.goes (h : s.Heard) {i : ι} {stage : PollStage}
    (hstage : ∀ node until_ lookedMs, ¬(stage = .looked node until_ [] lookedMs ∨
      stage = .sleeps node until_ lookedMs)) : (s.goes i stage).Heard :=
  h.moves (fun node until_ lookedMs hs => absurd hs (hstage node until_ lookedMs)) fun _ _ => rfl

/-- A look that finds nothing. -/
theorem Heard.looks (h : s.Heard) {i : ι} {node : NodeId} {until_ : Nat} :
    (s.goes i (.looked node until_ (s.queue.pending node s.nowMs MAX_BATCH) s.nowMs)).Heard := by
  refine h.moves (fun x u lookedMs hstage _ e he hlive => ?_) fun _ _ => rfl
  rcases hstage with hstage | hstage
  · obtain ⟨rfl, -, hnone, rfl⟩ := PollStage.looked.inj hstage
    rw [Queue.pending_eq_nil (by decide) hnone he] at hlive
    cases hlive
  · cases hstage

/-- What found nothing goes to sleep. -/
theorem Heard.sleeps (h : s.Heard) {i : ι} {node : NodeId} {until_ : Nat} {lookedMs : Int64}
    (hi : s.fetches i = .looked node until_ [] lookedMs) :
    (s.goes i (.sleeps node until_ lookedMs)).Heard := by
  refine h.moves (fun x u ms hstage hwoken => ?_) fun _ _ => rfl
  rcases hstage with hstage | hstage
  · cases hstage
  · obtain ⟨rfl, -, rfl⟩ := PollStage.sleeps.inj hstage
    exact h i node lookedMs ⟨until_, .inl hi, hwoken⟩

theorem Heard.enqueue (h : s.Heard) {i : ι} {entry : Entry} (hi : s.sends i = .idle) :
    Heard { s with
      queue := (s.queue.insert entry QUEUE_PER_RECIPIENT).2
      sends := Function.update s.sends i (.queued entry) } := by
  intro j node lookedMs hb e he hlive
  rcases Queue.mem_of_insert he with he | rfl
  · obtain ⟨k, hk⟩ := h j node lookedMs hb e he hlive
    have hki : k ≠ i := by
      rintro rfl
      rw [hi] at hk
      cases hk
    exact ⟨k, (Function.update_of_ne hki ..).trans hk⟩
  · exact ⟨i, Function.update_self ..⟩

omit [DecidableEq ι] in
/-- Everyone is woken by a notification. -/
theorem Heard.notify (s : LongPoll ι) (sends : ι → SendStage) :
    Heard { s with arrived := s.arrived.notifyWaiters, sends } := by
  rintro j node lookedMs ⟨u, -, hwoken⟩
  have hnot : s.arrived.notifyWaiters j ≠ some false := by
    rw [Notify.notifyWaiters]
    cases s.arrived j <;> simp
  exact absurd hwoken hnot

theorem Heard.step (h : s.Heard) (hs : s.step ev = some t) : t.Heard := by
  cases steps hs with
  | ticked => exact h
  | queued hi => exact h.enqueue hi
  | notified => exact Heard.notify s _
  | taken hsub => exact h.taken hsub
  | begins => exact h.goes (by simp)
  | arms => exact h.moves (by simp) fun _ hji => Function.update_of_ne hji ..
  | looks => exact h.looks
  | answers => exact h.leaves (by simp)
  | sleeps hi => exact h.sleeps hi
  | wakes => exact h.leaves (by simp)
  | acked hi hsub => exact (h.goes (by simp)).taken hsub
  | quits => exact h.leaves (by simp)

/-! ## Awake -/

omit [DecidableEq ι] in
/-- A fetch that looks or sleeps is armed. -/
def Armed (s : LongPoll ι) : Prop :=
  ∀ i, (s.fetches i).armed = true → s.arrived i ≠ none

theorem Armed.moves (h : s.Armed) {i : ι} {stage : PollStage} {arrived : Notify ι}
    (hi : stage.armed = true → arrived i ≠ none) (hother : ∀ j, j ≠ i → arrived j = s.arrived j) :
    Armed { s.goes i stage with arrived } := by
  intro j hj
  by_cases hji : j = i
  · rw [hji]
    exact hi (by simpa [goes, hji] using hj)
  · show arrived j ≠ none
    rw [hother j hji]
    exact h j (by simpa [goes, hji] using hj)

theorem Armed.leaves (h : s.Armed) {i : ι} {stage : PollStage} (hi : stage.armed = false) :
    (s.leaves i stage).Armed :=
  h.moves (fun hstage => by rw [hi] at hstage; cases hstage) fun _ hji => Function.update_of_ne hji ..

theorem Armed.goes (h : s.Armed) {i : ι} {stage : PollStage}
    (hi : stage.armed = true → (s.fetches i).armed = true) : (s.goes i stage).Armed :=
  h.moves (fun hstage => h i (hi hstage)) fun _ _ => rfl

theorem Armed.step (h : s.Armed) (hs : s.step ev = some t) : t.Armed := by
  cases steps hs with
  | notified => exact fun j hj hnone => h j hj (Option.map_eq_none_iff.mp hnone)
  | begins => exact h.goes (by simp [PollStage.armed])
  | arms => exact h.moves (by simp [Notify.enable]) fun _ hji => Function.update_of_ne hji ..
  | looks hi => exact h.goes fun _ => by rw [hi]; rfl
  | answers => exact h.leaves rfl
  | sleeps hi => exact h.goes fun _ => by rw [hi]; rfl
  | wakes => exact h.leaves rfl
  | acked => exact h.goes (by simp [PollStage.armed])
  | quits => exact h.leaves rfl
  | _ => exact h

/-! ## Answering -/

/-- The steps a fetch takes by itself. -/
def Own (i : ι) (ev : PollEvent ι) : Prop :=
  ev = .wake i ∨ ev = .arm i ∨ ev = .look i ∨ ev = .settle i

/-- By its own steps fetch `i` comes to answer with the message. -/
def Comes (s : LongPoll ι) (i : ι) (node : NodeId) (e : Entry) : Prop :=
  ∃ es t batch, (∀ ev ∈ es, Own i ev) ∧ run step s es = some t ∧
    t.fetches i = .delivers node batch ∧ e.message ∈ batch

theorem Comes.after {i : ι} {node : NodeId} {e : Entry} (h : t.Comes i node e) (hown : Own i ev)
    (hs : s.step ev = some t) : s.Comes i node e := by
  obtain ⟨es, u, batch, hes, hrun, hbatch⟩ := h
  exact ⟨ev :: es, u, batch, List.forall_mem_cons.mpr ⟨hown, hes⟩, run_cons.mpr ⟨t, hs, hrun⟩, hbatch⟩

section

variable {i : ι} {node : NodeId} {until_ : Nat} {e : Entry}

end

omit [DecidableEq ι] in
/-- No fetch looked at a later time than the clock reads. -/
def Looked (s : LongPoll ι) : Prop :=
  ∀ i node until_ batch lookedMs, s.fetches i = .looked node until_ batch lookedMs ∨
    s.fetches i = .sleeps node until_ lookedMs → lookedMs ≤ s.nowMs

theorem Looked.goes (h : s.Looked) {i : ι} {stage : PollStage}
    (hi : ∀ node until_ batch lookedMs, stage = .looked node until_ batch lookedMs ∨
      stage = .sleeps node until_ lookedMs → lookedMs ≤ s.nowMs) : (s.goes i stage).Looked := by
  intro j node until_ batch lookedMs hj
  by_cases hji : j = i
  · exact hi node until_ batch lookedMs (by simpa [LongPoll.goes, hji] using hj)
  · exact h j node until_ batch lookedMs (by simpa [LongPoll.goes, hji] using hj)

theorem Looked.step (h : s.Looked) (hclock : s.nowMs ≤ t.nowMs) (hs : s.step ev = some t) :
    t.Looked := by
  cases steps hs with
  | ticked =>
    exact fun i node until_ batch lookedMs hi => Int64.le_trans (h i node until_ batch lookedMs hi) hclock
  | begins => exact h.goes (by simp)
  | arms => exact h.goes (by simp)
  | looks =>
    refine h.goes fun _ _ _ _ hstage => ?_
    obtain ⟨-, -, -, rfl⟩ := PollStage.looked.inj (hstage.resolve_right (by simp))
    exact Int64.le_refl _
  | answers => exact h.goes (by simp)
  | @sleeps i node until_ lookedMs hi =>
    refine h.goes fun _ _ _ _ hstage => ?_
    obtain ⟨-, -, rfl⟩ := PollStage.sleeps.inj (hstage.resolve_left (by simp))
    exact h i node until_ [] lookedMs (.inl hi)
  | wakes => exact h.goes (by simp)
  | acked => exact h.goes (by simp)
  | quits => exact h.goes (by simp)
  | _ => exact h

end LongPoll

/-! ## A longer queue -/

section Sample

open LongPoll

end Sample

end Wires
