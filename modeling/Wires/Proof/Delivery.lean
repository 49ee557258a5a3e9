import Wires.Framework.Ledger
import Wires.Impl.Delivery

/-!
# No message is lost

The accounts of a host's push queue: what a run of its tasks took out of a
recipient's queue and what the queue holds is what was there and what was sent
to it, in order (`conserved`). Each operation of the queue has its accounts, for
a queue whose entries are all filed under their recipients (`Queue.Sound`), and
each entry that leaves does so for one of the reasons of `Pushing.Leaves`.
-/

namespace Wires

/-! ## The queue's operations -/

/-- The entries of one recipient, of a list of them. -/
def entriesOf (node : NodeId) (es : List Entry) : List Entry :=
  es.filter fun e => e.message.recipient = node

namespace Queue

variable {q : Queue} {node x : NodeId} {now : Int64} {ids : List PushId} {cap : Nat}

/-- Entries are filed under their recipients, and no recipient has none or more than `cap`. -/
def Sound (cap : Nat) (q : Queue) : Prop :=
  ∀ node es, q.byRecipient.get? node = some es →
    es ≠ [] ∧ es.length ≤ cap ∧ ∀ e ∈ es, e.message.recipient = node

theorem sound_empty : Sound cap ⟨∅⟩ := nofun

theorem Sound.recipient (h : q.Sound cap) {e : Entry} (he : e ∈ q.of node) :
    e.message.recipient = node := by
  unfold of at he
  cases hg : q.byRecipient.get? node with
  | none => simp [hg] at he
  | some es =>
    rw [hg, Option.getD_some] at he
    exact (h node es hg).2.2 e he

theorem Sound.length_le (h : q.Sound cap) : (q.of node).length ≤ cap := by
  unfold of
  cases hg : q.byRecipient.get? node with
  | none => simp
  | some es => exact (h node es hg).2.1

theorem Sound.entriesOf_of (h : q.Sound cap) : entriesOf x (q.of node) =
    if node = x then q.of node else [] := by
  split_ifs with hn
  · exact List.filter_eq_self.mpr fun e he => by simp [h.recipient he, hn]
  · exact List.filter_eq_nil_iff.mpr fun e he => by simp [h.recipient he, hn]

theorem of_insert_map (q : SortedMap NodeId (List Entry)) (es : List Entry) :
    (⟨q.insert node es⟩ : Queue).of x = if x = node then es else (⟨q⟩ : Queue).of x := by
  unfold of
  rw [SortedMap.get?_insert]
  split_ifs <;> rfl

theorem of_erase_map (q : SortedMap NodeId (List Entry)) :
    (⟨q.erase node⟩ : Queue).of x = if x = node then [] else (⟨q⟩ : Queue).of x := by
  unfold of
  rw [SortedMap.get?_erase]
  split_ifs <;> rfl

/-! ### Insertion -/

/-- An entry joins its recipient's queue, and the oldest one leaves it where it was full. -/
theorem Sound.insert (h : q.Sound cap) (hcap : 0 < cap) (entry : Entry) :
    q.insert entry cap = (none, ⟨q.byRecipient.insert entry.message.recipient
        (q.of entry.message.recipient ++ [entry])⟩) ∧
      (q.of entry.message.recipient).length < cap ∨
    ∃ y rest, q.of entry.message.recipient = y :: rest ∧ (y :: rest).length = cap ∧
      q.insert entry cap = (some y, ⟨q.byRecipient.insert entry.message.recipient
        (rest ++ [entry])⟩) := by
  have hle : (q.of entry.message.recipient).length ≤ cap := h.length_le
  have hlen : (q.of entry.message.recipient ++ [entry]).length =
      (q.of entry.message.recipient).length + 1 := List.length_append
  by_cases hover : (q.of entry.message.recipient ++ [entry]).length > cap
  · right
    obtain ⟨y, rest, hof⟩ : ∃ y rest, q.of entry.message.recipient = y :: rest := by
      cases hof : q.of entry.message.recipient with
      | nil =>
        rw [hof] at hover
        simp only [List.nil_append, List.length_singleton] at hover
        omega
      | cons y rest => exact ⟨y, rest, rfl⟩
    refine ⟨y, rest, hof, by rw [← hof]; omega, ?_⟩
    unfold Queue.insert
    rw [if_pos hover, hof]
    rfl
  · left
    refine ⟨?_, by omega⟩
    unfold Queue.insert
    rw [if_neg hover]

/-! ### Removal -/

theorem remove_fst : (q.remove node ids).1 = (q.of node).filter fun e => ids.contains e.message.id := by
  unfold remove of
  cases q.byRecipient.get? node <;> simp [List.partition_eq_filter_filter]

theorem of_remove : (q.remove node ids).2.of x =
    if x = node then (q.of node).filter fun e => !ids.contains e.message.id else q.of x := by
  unfold remove
  cases hg : q.byRecipient.get? node with
  | none =>
    have hof : q.of node = [] := by simp [of, hg]
    split_ifs with hx
    · simp [hx, hof]
    · rfl
  | some es =>
    have hof : q.of node = es := by simp [of, hg]
    simp only [List.partition_eq_filter_filter, hof]
    split_ifs with hkept hx hx
    · rw [of_erase_map, if_pos hx]
      exact hkept.symm
    · rw [of_erase_map, if_neg hx]
    · rw [of_insert_map, if_pos hx]
      rfl
    · rw [of_insert_map, if_neg hx]

/-! ### Expiry -/

theorem of_expire : (q.expire now).2.of x =
    (q.of x).filter fun e => !e.message.isExpired now := by
  unfold expire of
  simp only [SortedMap.get?_filterMap]
  cases q.byRecipient.get? x with
  | none => rfl
  | some es =>
    rw [Option.bind_some, Option.getD_some]
    split_ifs with hkept
    · exact hkept.symm
    · rfl

theorem entriesOf_flatMap_of_notMem {f : Entry → Bool} {es : List (NodeId × List Entry)}
    (hx : x ∉ es.map Prod.fst) (hr : ∀ p ∈ es, ∀ e ∈ p.2, e.message.recipient = p.1) :
    entriesOf x ((es.map Prod.snd).flatMap fun l => l.filter f) = [] := by
  refine List.filter_eq_nil_iff.mpr fun e he => ?_
  obtain ⟨l, hl, hmem⟩ := List.mem_flatMap.mp he
  obtain ⟨p, hp, rfl⟩ := List.mem_map.mp hl
  rw [hr p hp e (List.mem_of_mem_filter hmem), decide_eq_true_eq]
  rintro rfl
  exact hx (List.mem_map_of_mem hp)

theorem entriesOf_flatMap {f : Entry → Bool} {es : List (NodeId × List Entry)} {l : List Entry}
    (hn : (es.map Prod.fst).Nodup) (hx : (x, l) ∈ es)
    (hr : ∀ p ∈ es, ∀ e ∈ p.2, e.message.recipient = p.1) :
    entriesOf x ((es.map Prod.snd).flatMap fun l => l.filter f) = l.filter f := by
  induction es with
  | nil => cases hx
  | cons p es ih =>
    simp only [List.map_cons, List.nodup_cons] at hn
    have hrest : ∀ p ∈ es, ∀ e ∈ p.2, e.message.recipient = p.1 := fun p hp =>
      hr p (List.mem_cons_of_mem _ hp)
    rw [List.map_cons, List.flatMap_cons, entriesOf, List.filter_append]
    rcases List.mem_cons.mp hx with rfl | hx
    · have hall : (l.filter f).filter (fun e => e.message.recipient = x) = l.filter f :=
        List.filter_eq_self.mpr fun e he => by
          simpa using hr _ List.mem_cons_self e (List.mem_of_mem_filter he)
      rw [hall]
      exact (congrArg _ (entriesOf_flatMap_of_notMem hn.1 hrest)).trans (List.append_nil _)
    · have hne : p.1 ≠ x := fun he => hn.1 (he ▸ List.mem_map_of_mem hx)
      have hno : (p.2.filter f).filter (fun e => e.message.recipient = x) = [] :=
        List.filter_eq_nil_iff.mpr fun e he => by
          simpa [hr p List.mem_cons_self e (List.mem_of_mem_filter he)] using hne
      rw [hno, List.nil_append]
      exact ih hn.2 hx hrest

theorem Sound.entriesOf_expire (h : q.Sound cap) : entriesOf x (q.expire now).1 =
    (q.of x).filter fun e => e.message.isExpired now := by
  have hr : ∀ p ∈ q.byRecipient.entries, ∀ e ∈ p.2, e.message.recipient = p.1 := fun p hp =>
    (h p.1 p.2 (SortedMap.get?_eq_some_iff.mpr hp)).2.2
  unfold of
  cases hg : q.byRecipient.get? x with
  | none => exact entriesOf_flatMap_of_notMem (SortedMap.get?_eq_none_iff.mp hg) hr
  | some es =>
    exact entriesOf_flatMap q.byRecipient.nodup_keys (SortedMap.get?_eq_some_iff.mp hg) hr

/-- Nothing changes where nothing expired. -/
theorem Sound.expire_eq_self (h : q.Sound cap) (hnone : (q.expire now).1 = []) :
    (q.expire now).2 = q := by
  have hkept : ∀ p ∈ q.byRecipient.entries, p.2.filter (fun e => !e.message.isExpired now) = p.2 := by
    intro p hp
    refine List.filter_eq_self.mpr fun e he => ?_
    by_contra hno
    have hmem : e ∈ (q.expire now).1 := by
      refine List.mem_flatMap.mpr ⟨p.2, List.mem_map_of_mem hp, List.mem_filter.mpr ⟨he, ?_⟩⟩
      simpa using hno
    rw [hnone] at hmem
    cases hmem
  have hentries : (q.expire now).2.byRecipient.entries = q.byRecipient.entries := by
    show q.byRecipient.entries.filterMap _ = _
    refine (List.filterMap_congr fun p hp => ?_).trans List.filterMap_some
    have hne := (h p.1 p.2 (SortedMap.get?_eq_some_iff.mpr hp)).1
    simp only [hkept p hp, if_neg hne, Option.map_some]
  obtain ⟨m⟩ := q
  exact congrArg Queue.mk (SortedMap.ext hentries)

/-! ### Accounts -/

/-- What a queue's recipients had, got and lost, and have. -/
def Books (q : Queue) (came gone : List Entry) (q' : Queue) : Prop :=
  ∀ x, Accounts (q.of x) (entriesOf x came) (entriesOf x gone) (q'.of x)

theorem Books.refl (q : Queue) : q.Books [] [] q := fun _ => .refl _

theorem Books.trans {q' q'' : Queue} {came gone came' gone' : List Entry} (h : q.Books came gone q')
    (h' : q'.Books came' gone' q'') : q.Books (came ++ came') (gone ++ gone') q'' := fun x => by
  rw [entriesOf, entriesOf, List.filter_append, List.filter_append]
  exact (h x).trans (h' x)

theorem entriesOf_singleton (e : Entry) :
    entriesOf x [e] = if e.message.recipient = x then [e] else [] := by
  by_cases h : e.message.recipient = x <;> simp [entriesOf, h]

theorem Sound.put (h : q.Sound cap) {es : List Entry} (hne : es ≠ []) (hle : es.length ≤ cap)
    (hes : ∀ e ∈ es, e.message.recipient = node) : Sound cap ⟨q.byRecipient.insert node es⟩ := by
  intro x l hl
  rw [SortedMap.get?_insert] at hl
  split_ifs at hl with hx
  · cases hl
    exact ⟨hne, hle, hx ▸ hes⟩
  · exact h x l hl

theorem Sound.erase (h : q.Sound cap) : Sound cap ⟨q.byRecipient.erase node⟩ := by
  intro x l hl
  rw [SortedMap.get?_erase] at hl
  split_ifs at hl
  exact h x l hl

theorem Sound.inserted (h : q.Sound cap) (hcap : 0 < cap) (entry : Entry) :
    Sound cap (q.insert entry cap).2 ∧
      q.Books [entry] (q.insert entry cap).1.toList (q.insert entry cap).2 := by
  have hown : ∀ e ∈ q.of entry.message.recipient ++ [entry],
      e.message.recipient = entry.message.recipient := by
    intro e he
    rcases List.mem_append.mp he with he | he
    · exact h.recipient he
    · rw [List.mem_singleton.mp he]
  obtain ⟨heq, hlt⟩ | ⟨y, rest, hof, hlen, heq⟩ := h.insert hcap entry
  · rw [heq]
    refine ⟨h.put (by simp) (by rw [List.length_append]; exact hlt) hown, fun x => ?_⟩
    rw [of_insert_map, entriesOf_singleton]
    by_cases hx : x = entry.message.recipient
    · subst hx
      rw [if_pos rfl, if_pos rfl]
      exact .join _ _
    · rw [if_neg hx, if_neg (Ne.symm hx)]
      exact .refl _
  · rw [heq]
    rw [hof] at hown
    have hy : y.message.recipient = entry.message.recipient :=
      h.recipient (hof ▸ List.mem_cons_self)
    have hrest : (rest ++ [entry]).length ≤ cap := by
      rw [List.length_append]
      exact hlen.le
    refine ⟨h.put (by simp) hrest fun e he => hown e (List.mem_cons_of_mem _ he), fun x => ?_⟩
    rw [of_insert_map, entriesOf_singleton, Option.toList_some, entriesOf_singleton, hy]
    by_cases hx : x = entry.message.recipient
    · subst hx
      rw [if_pos rfl, if_pos rfl, if_pos rfl, hof]
      exact .overflow rfl
    · rw [if_neg hx, if_neg (Ne.symm hx), if_neg (Ne.symm hx)]
      exact .refl _

theorem Sound.removed (h : q.Sound cap) : Sound cap (q.remove node ids).2 ∧
    q.Books [] (q.remove node ids).1 (q.remove node ids).2 := by
  constructor
  · unfold remove
    cases hg : q.byRecipient.get? node with
    | none => exact h
    | some es =>
      obtain ⟨-, hle, hes⟩ := h node es hg
      simp only [List.partition_eq_filter_filter]
      split_ifs with hkept
      · exact h.erase
      · exact h.put hkept ((List.length_filter_le _ _).trans hle) fun e he =>
          hes e (List.mem_of_mem_filter he)
  · intro x
    rw [of_remove, remove_fst]
    split_ifs with hx
    · subst hx
      have hall : entriesOf x ((q.of x).filter fun e => ids.contains e.message.id) =
          (q.of x).filter fun e => ids.contains e.message.id :=
        List.filter_eq_self.mpr fun e he => by simp [h.recipient (List.mem_of_mem_filter he)]
      rw [hall]
      exact .part _ _
    · have hno : entriesOf x ((q.of node).filter fun e => ids.contains e.message.id) = [] :=
        List.filter_eq_nil_iff.mpr fun e he => by
          simpa [h.recipient (List.mem_of_mem_filter he)] using Ne.symm hx
      rw [hno]
      exact .refl _

theorem Sound.purged (h : q.Sound cap) : Sound cap (q.purge node).2 ∧
    q.Books [] (q.purge node).1 (q.purge node).2 := by
  refine ⟨h.erase, fun x => ?_⟩
  show Accounts (q.of x) [] (entriesOf x (q.of node)) ((⟨q.byRecipient.erase node⟩ : Queue).of x)
  rw [h.entriesOf_of, of_erase_map]
  by_cases hx : x = node
  · subst hx
    rw [if_pos rfl, if_pos rfl]
    exact .clear _
  · rw [if_neg hx, if_neg (Ne.symm hx)]
    exact .refl _

theorem Sound.expired (h : q.Sound cap) : Sound cap (q.expire now).2 ∧
    q.Books [] (q.expire now).1 (q.expire now).2 := by
  constructor
  · intro x l hl
    replace hl : (q.byRecipient.filterMap _).get? x = some l := hl
    rw [SortedMap.get?_filterMap] at hl
    obtain ⟨es, hes, hkept⟩ := Option.bind_eq_some_iff.mp hl
    obtain ⟨-, hle, hown⟩ := h x es hes
    dsimp only at hkept
    split_ifs at hkept with hnone
    cases hkept
    exact ⟨hnone, (List.length_filter_le _ _).trans hle, fun e he => hown e (List.mem_of_mem_filter he)⟩
  · intro x
    rw [h.entriesOf_expire, of_expire]
    exact .part _ _

end Queue

/-! ## Steps -/

namespace Pushing

variable {ι : Type} [DecidableEq ι] {s s' : Pushing ι} {e : DeliveryEvent ι}
  {gone : List (Entry × PushOutcome)}

/-- What a step queues. -/
def comes (s : Pushing ι) : DeliveryEvent ι → List Entry
  | .enqueue i =>
    match s.tasks i with
    | .sends entry => [entry]
    | _ => []
  | _ => []

/-- The recipient whose queue a step may change; the sweep may change every one. -/
def target (s : Pushing ι) : DeliveryEvent ι → Option NodeId
  | .enqueue i =>
    match s.tasks i with
    | .sends entry => some entry.message.recipient
    | _ => none
  | .authorize i (some true) =>
    match s.tasks i with
    | .delivers node => some node
    | _ => none
  | .refuse _ node => some node
  | .ack i _ =>
    match s.tasks i with
    | .awaits node _ _ => some node
    | _ => none
  | _ => none

/-- Why an entry leaves the queue. -/
inductive Leaves (s : Pushing ι) (x : Entry) : DeliveryEvent ι → PushOutcome → Prop
  /-- An ack on a connection of its recipient's names it. -/
  | acked {i ids batch how} : s.tasks i = .awaits x.message.recipient batch how →
    x.message.id ∈ ids → Leaves s x (.ack i ids) how
  | expired {nowMs} : x.message.expiresMs ≤ nowMs → Leaves s x (.sweep nowMs) .expired
  /-- It is the oldest of its recipient's, whose queue is full as another message joins it. -/
  | overflows {i entry rest} : s.tasks i = .sends entry →
    entry.message.recipient = x.message.recipient → s.queue.of x.message.recipient = x :: rest →
    (x :: rest).length = QUEUE_PER_RECIPIENT → Leaves s x (.enqueue i) .dropped
  /-- Its recipient is banned. -/
  | undelivered {i} : s.tasks i = .delivers x.message.recipient →
    Leaves s x (.authorize i (some true)) .denied
  | refused {i} : Leaves s x (.refuse i x.message.recipient) .denied

theorem map_fst_tagged (es : List Entry) (how : PushOutcome) :
    (es.map fun x => (x, how)).map Prod.fst = es := by
  rw [List.map_map]
  exact List.map_id _

/-- What a step did: the books, why what left did, and whose queues are as they were. -/
structure Did (s : Pushing ι) (e : DeliveryEvent ι) (gone : List (Entry × PushOutcome))
    (s' : Pushing ι) : Prop where
  sound : s'.queue.Sound QUEUE_PER_RECIPIENT
  books : s.queue.Books (s.comes e) (gone.map Prod.fst) s'.queue
  why : ∀ p ∈ gone, s.Leaves p.1 e p.2
  others : ∀ node, s.target e ≠ some node → (∀ nowMs, e ≠ .sweep nowMs) →
    s'.queue.of node = s.queue.of node
  saved : (∀ q, s.saved = some q → q = s.queue) → ∀ q, s'.saved = some q → q = s'.queue

omit [DecidableEq ι] in
/-- A step that does not touch the queue. -/
theorem did_keep (h : s.queue.Sound QUEUE_PER_RECIPIENT) (hcomes : s.comes e = [])
    (hq : s'.queue = s.queue) (hs : s'.saved = s.saved) : s.Did e [] s' where
  sound := hq ▸ h
  books := by
    rw [hcomes, hq]
    exact .refl _
  why := nofun
  others := fun node _ _ => by rw [hq]
  saved := fun hk q hsaved => by
    rw [hq]
    exact hk q (hs ▸ hsaved)

theorem did_drop (h : s.queue.Sound QUEUE_PER_RECIPIENT) {i : ι} {node : NodeId} {task : DeliveryTask}
    (hcomes : s.comes e = []) (htarget : s.target e = some node)
    (hwhy : ∀ x : Entry, x.message.recipient = node → s.Leaves x e .denied) :
    s.Did e ((s.goes i task).dropQueue node).1 ((s.goes i task).dropQueue node).2 where
  sound := h.purged.1
  books := by
    rw [hcomes]
    have hfst : ((s.goes i task).dropQueue node).1.map Prod.fst = (s.queue.purge node).1 :=
      map_fst_tagged ..
    rw [hfst]
    exact h.purged.2
  why := fun p hp => by
    obtain ⟨x, hx, rfl⟩ := List.mem_map.mp hp
    exact hwhy x (h.recipient hx)
  others := fun other hne _ => by
    have hno : other ≠ node := fun he => hne (he ▸ htarget)
    exact (Queue.of_erase_map _).trans (if_neg hno)
  saved := fun _ q hq => (Option.some.inj hq).symm

theorem did_enqueue (h : s.queue.Sound QUEUE_PER_RECIPIENT) {i : ι} {entry : Entry}
    (hi : s.tasks i = .sends entry) :
    s.Did (.enqueue i) ((s.queue.insert entry QUEUE_PER_RECIPIENT).1.toList.map fun x => (x, .dropped))
      ((s.goes i (.delivers entry.message.recipient)).withQueue
        (s.queue.insert entry QUEUE_PER_RECIPIENT).2) where
  sound := (h.inserted (by decide) entry).1
  books := by
    have hcomes : s.comes (.enqueue i) = [entry] := by simp only [comes, hi]
    rw [hcomes, map_fst_tagged]
    exact (h.inserted (by decide) entry).2
  why := fun p hp => by
    obtain ⟨x, hx, rfl⟩ := List.mem_map.mp hp
    obtain ⟨heq, -⟩ | ⟨y, rest, hof, hlen, heq⟩ := h.insert (by decide) entry
    · rw [heq] at hx
      cases hx
    · rw [heq] at hx
      obtain rfl : x = y := by simpa using hx
      have hx : x.message.recipient = entry.message.recipient := h.recipient (hof ▸ List.mem_cons_self)
      exact .overflows hi hx.symm (hx ▸ hof) hlen
  others := fun node hne _ => by
    have hno : node ≠ entry.message.recipient := fun he => hne (by simp only [target, hi, he])
    show (s.queue.insert entry QUEUE_PER_RECIPIENT).2.of node = s.queue.of node
    obtain ⟨heq, -⟩ | ⟨y, rest, -, -, heq⟩ := h.insert (by decide) entry
    · rw [heq, Queue.of_insert_map, if_neg hno]
    · rw [heq, Queue.of_insert_map, if_neg hno]
  saved := fun _ q hq => (Option.some.inj hq).symm

theorem did_ack (h : s.queue.Sound QUEUE_PER_RECIPIENT) {i : ι} {node : NodeId}
    {batch : List PushMessage} {how : PushOutcome} (hi : s.tasks i = .awaits node batch how)
    (ids : List PushId) :
    s.Did (.ack i ids) ((s.queue.remove node ids).1.map fun x => (x, how))
      ((s.goes i .done).withQueue (s.queue.remove node ids).2) where
  sound := h.removed.1
  books := by
    rw [map_fst_tagged]
    exact h.removed.2
  why := fun p hp => by
    obtain ⟨x, hx, rfl⟩ := List.mem_map.mp hp
    rw [Queue.remove_fst] at hx
    have hown := h.recipient (List.mem_of_mem_filter hx)
    have hawaits : s.tasks i = .awaits x.message.recipient batch how := hown ▸ hi
    refine .acked hawaits ?_
    simpa using (List.mem_filter.mp hx).2
  others := fun other hne _ => by
    have hno : other ≠ node := fun he => hne (by simp only [target, hi, he])
    exact Queue.of_remove.trans (if_neg hno)
  saved := fun _ q hq => (Option.some.inj hq).symm

omit [DecidableEq ι] in
theorem did_sweep (h : s.queue.Sound QUEUE_PER_RECIPIENT) (nowMs : Int64) :
    s.Did (.sweep nowMs) ((s.queue.expire nowMs).1.map fun x => (x, .expired))
      (if (s.queue.expire nowMs).1 = [] then { s with queue := (s.queue.expire nowMs).2 }
        else s.withQueue (s.queue.expire nowMs).2) := by
  have hqueue : (if (s.queue.expire nowMs).1 = [] then { s with queue := (s.queue.expire nowMs).2 }
      else s.withQueue (s.queue.expire nowMs).2).queue = (s.queue.expire nowMs).2 := by
    split_ifs <;> rfl
  refine ⟨?_, ?_, ?_, fun _ _ hno => absurd rfl (hno nowMs), fun hk q hq => ?_⟩
  · rw [hqueue]
    exact h.expired.1
  · rw [hqueue, map_fst_tagged]
    exact h.expired.2
  · intro p hp
    obtain ⟨x, hx, rfl⟩ := List.mem_map.mp hp
    obtain ⟨l, -, hl⟩ := List.mem_flatMap.mp hx
    exact .expired (of_decide_eq_true (List.mem_filter.mp hl).2)
  · rw [hqueue]
    split_ifs at hq with hnone
    · -- nothing expired, so nothing changed and nothing is saved
      rw [h.expire_eq_self hnone]
      exact hk q hq
    · exact (Option.some.inj hq).symm

theorem did_of_act (h : s.queue.Sound QUEUE_PER_RECIPIENT) (ha : s.act e = some (gone, s')) :
    s.Did e gone s' := by
  cases e with
  | send i entry =>
    simp only [act] at ha
    split at ha
    · cases ha
      exact did_keep h rfl rfl rfl
    · cases ha
  | enqueue i =>
    simp only [act] at ha
    split at ha
    · rename_i hi
      cases ha
      exact did_enqueue h hi
    · cases ha
  | authorize i refusal =>
    simp only [act] at ha
    split at ha
    · rename_i node hi
      split at ha
      · cases ha
        exact did_keep h rfl rfl rfl
      · cases ha
        exact did_drop h rfl (by simp only [target, hi]) fun x hx => .undelivered (hx ▸ hi)
      · cases ha
        exact did_keep h rfl rfl rfl
    · cases ha
  | look i nowMs =>
    simp only [act] at ha
    split at ha
    · cases ha
      exact did_keep h rfl rfl rfl
    · cases ha
  | fetch i node =>
    simp only [act] at ha
    split at ha
    · cases ha
      exact did_keep h rfl rfl rfl
    · cases ha
  | poll i nowMs timedOut =>
    simp only [act] at ha
    split at ha
    · rw [Option.some.injEq, Prod.mk.injEq] at ha
      obtain ⟨rfl, rfl⟩ := ha
      refine did_keep h rfl ?_ ?_ <;> split_ifs <;> rfl
    · cases ha
  | refuse i node =>
    simp only [act] at ha
    split at ha
    · cases ha
      exact did_drop h rfl rfl fun x hx => hx ▸ .refused
    · cases ha
  | ack i ids =>
    simp only [act] at ha
    split at ha
    · rename_i hi
      cases ha
      exact did_ack h hi ids
    · cases ha
  | leave i =>
    cases ha
    exact did_keep h rfl rfl rfl
  | sweep nowMs =>
    cases ha
    exact did_sweep h nowMs

/-! ## Runs -/

theorem step_eq_some : s.step e = some s' ↔ ∃ gone, s.act e = some (gone, s') := by
  rw [step, Option.map_eq_some_iff]
  constructor
  · rintro ⟨⟨gone, s''⟩, ha, rfl⟩
    exact ⟨gone, ha⟩
  · rintro ⟨gone, ha⟩
    exact ⟨(gone, s'), ha, rfl⟩

/-- The queue is sound, and what was last saved is the queue. -/
structure Kept (s : Pushing ι) : Prop where
  sound : s.queue.Sound QUEUE_PER_RECIPIENT
  saved : ∀ q, s.saved = some q → q = s.queue

theorem Kept.run {es : List (DeliveryEvent ι)} (h : s.Kept) (hrun : run step s es = some s') :
    s'.Kept := by
  refine run_invariant (fun s e s' hk hs => ?_) h hrun
  obtain ⟨gone, ha⟩ := step_eq_some.mp hs
  have hdid := did_of_act hk.sound ha
  exact ⟨hdid.sound, hdid.saved hk.saved⟩

variable (ι) in
/-- What a host can find in its queue file: nothing, or what an earlier run of it saved. -/
inductive Saved : Option Queue → Prop
  | absent : Saved none
  | run {saved es} {s : Pushing ι} : Saved saved → run step (start saved) es = some s → Saved s.saved

theorem Saved.kept {saved : Option Queue} (h : Saved ι saved) : (start saved : Pushing ι).Kept := by
  induction h with
  | absent => exact ⟨Queue.sound_empty, nofun⟩
  | @run saved es s _ hrun ih =>
    have hk := ih.run hrun
    cases hs : s.saved with
    | none => exact ⟨Queue.sound_empty, nofun⟩
    | some q =>
      obtain rfl := hk.saved q hs
      exact ⟨hk.sound, fun q hq => (Option.some.inj hq).symm⟩

end Pushing

section Sample

/-- A message from node 2 to node 4. -/
def sampleMessage : PushMessage :=
  ⟨Bytes.fill 16 1, Bytes.fill 32 2, Bytes.fill 32 4, ⟨"build", by decide⟩, ⟨"failed", by decide⟩, 5, 100⟩

end Sample

end Wires
