import Wires.Impl.Publish

/-!
# A publish accounts for every directory

Every target of a publish is in exactly one of its report's lists, whatever the
directories answer and however often they are tried (`Accounted`). What holds of
one round (`accounted_report`) a retry keeps: it takes out of `missed` whom it
tries again and puts back where their answers say (`Accounted.retry`). A
directory that holds a newer policy did not take the publish, and is not among
those that `missed_running` names (`published_or_missed`).
-/

namespace Wires

namespace Publish

variable {want : StateVersion} {wantHead : HeadHash} {d : NodeId} {tries more : Tries} {job : Job}
  {targets : List NodeId} {r : Round} {rs : List Round} {s s' : State}

/-! ## One round -/

theorem took_eq_delivered {a : Option Directory.Answer} :
    took want wantHead a = .delivered ↔ a = some (.published want wantHead) := by
  constructor
  · intro h
    unfold took at h
    split at h
    · split_ifs at h with hgt heq hhead
      · rw [heq, hhead]
    · split_ifs at h
    · cases h
    · cases h
  · rintro rfl
    unfold took
    dsimp only
    rw [if_neg (lt_irrefl want), if_pos rfl, if_pos rfl]

theorem mem_sort {α : Type} {R : α → α → Prop} [DecidableRel R] {x : α} {l : List α} :
    x ∈ l.insertionSort R ↔ x ∈ l := (List.perm_insertionSort R l).mem_iff

theorem mem_delivered : d ∈ (report tries).delivered ↔ (d, .delivered) ∈ tries := by
  unfold report
  rw [mem_sort, List.mem_filterMap]
  constructor
  · rintro ⟨⟨x, o⟩, hx, ho⟩
    cases o with
    | delivered => exact Option.some.inj ho ▸ hx
    | _ => cases ho
  · exact fun h => ⟨_, h, rfl⟩

theorem mem_refused : d ∈ (report tries).refused ↔ (d, .refused) ∈ tries := by
  unfold report
  rw [mem_sort, List.mem_filterMap]
  constructor
  · rintro ⟨⟨x, o⟩, hx, ho⟩
    cases o with
    | refused => exact Option.some.inj ho ▸ hx
    | _ => cases ho
  · exact fun h => ⟨_, h, rfl⟩

theorem mem_missed : d ∈ (report tries).missed ↔ (d, .missed) ∈ tries ∨ (d, .refused) ∈ tries := by
  unfold report
  rw [mem_sort, List.mem_filterMap]
  constructor
  · rintro ⟨⟨x, o⟩, hx, ho⟩
    cases o with
    | missed => exact .inl (Option.some.inj ho ▸ hx)
    | refused => exact .inr (Option.some.inj ho ▸ hx)
    | _ => cases ho
  · rintro (h | h)
    · exact ⟨_, h, rfl⟩
    · exact ⟨_, h, rfl⟩

theorem mem_newer {v : StateVersion} : (d, v) ∈ (report tries).newer ↔ (d, .newer v) ∈ tries := by
  unfold report
  rw [mem_sort, List.mem_filterMap]
  constructor
  · rintro ⟨⟨x, o⟩, hx, ho⟩
    cases o with
    | newer w =>
      obtain ⟨rfl, rfl⟩ := Prod.mk.inj (Option.some.inj ho)
      exact hx
    | _ => cases ho
  · exact fun h => ⟨_, h, rfl⟩

/-- The directories of a report, list after list. -/
def named (report : PublishReport) : List NodeId :=
  report.delivered ++ (report.missed ++ report.newer.map Prod.fst)

theorem perm_outcomes (tries : Tries) : (tries.filterMap delivered? ++
    (tries.filterMap missed? ++ (tries.filterMap newer?).map Prod.fst)).Perm (tries.map Prod.fst) := by
  induction tries with
  | nil => exact .refl _
  | cons t tries ih =>
    obtain ⟨d, o⟩ := t
    cases o with
    | delivered =>
      simp only [List.filterMap_cons, delivered?, missed?, newer?, List.map_cons, List.cons_append]
      exact ih.cons d
    | missed =>
      simp only [List.filterMap_cons, delivered?, missed?, newer?, List.map_cons, List.cons_append]
      exact List.perm_middle.trans (ih.cons d)
    | refused =>
      simp only [List.filterMap_cons, delivered?, missed?, newer?, List.map_cons, List.cons_append]
      exact List.perm_middle.trans (ih.cons d)
    | newer v =>
      simp only [List.filterMap_cons, delivered?, missed?, newer?, List.map_cons]
      refine (List.Perm.append_left _ List.perm_middle).trans ?_
      exact List.perm_middle.trans (ih.cons d)

theorem perm_named (tries : Tries) : (named (report tries)).Perm (tries.map Prod.fst) := by
  refine List.Perm.trans ?_ (perm_outcomes tries)
  exact (List.perm_insertionSort _ _).append ((List.perm_insertionSort _ _).append
    ((List.perm_insertionSort _ _).map _))

theorem map_fst_tries (r : Round) (job : Job) (targets : List NodeId) :
    (r.tries job targets).map Prod.fst = targets := by
  rw [Round.tries, List.map_map]
  exact List.map_id _

/-- A round asks no one twice. -/
theorem pairwise_tries (r : Round) (job : Job) (hn : targets.Nodup) :
    (r.tries job targets).Pairwise fun a b => a.1 ≠ b.1 := by
  rw [← List.pairwise_map (f := Prod.fst) (R := (· ≠ ·)), map_fst_tries]
  exact hn

/-! ## Every round -/

/-- What the report says of whom was tried: every target is in one of its lists, each as its last answer
was, and no one is tried again after another answer than none. -/
structure Accounted (job : Job) (targets : List NodeId) (s : State) : Prop where
  perm : (named s.report).Perm targets
  delivered : ∀ d, d ∈ s.report.delivered ↔ (d, .delivered) ∈ s.tries
  refused : ∀ d, d ∈ s.report.refused ↔ (d, .refused) ∈ s.tries
  newer : ∀ d v, (d, v) ∈ s.report.newer ↔ (d, .newer v) ∈ s.tries
  refused_missed : ∀ d ∈ s.report.refused, d ∈ s.report.missed
  once : s.tries.Pairwise fun a b => a.1 = b.1 → a.2 = .missed ∧ job.patient.containsKey a.1 = true

/-- Who is in two of the lists is in the targets twice. -/
theorem Accounted.missed_of_tries (h : Accounted job targets s) (hn : targets.Nodup)
    (hd : d ∈ s.report.missed) (hr : d ∉ s.report.refused) {o : Took} (ho : (d, o) ∈ s.tries) :
    o = .missed := by
  have hnodup : (named s.report).Nodup := h.perm.nodup_iff.mpr hn
  rw [named, List.nodup_append] at hnodup
  obtain ⟨-, hrest, hdelivered⟩ := hnodup
  rw [List.nodup_append] at hrest
  obtain ⟨-, -, hnewer⟩ := hrest
  cases o with
  | delivered =>
    have hin := (h.delivered d).mpr ho
    exact absurd rfl (hdelivered d hin d (List.mem_append_left _ hd))
  | missed => rfl
  | refused => exact absurd ((h.refused d).mpr ho) hr
  | newer v =>
    have hin := List.mem_map_of_mem (f := Prod.fst) ((h.newer d v).mpr ho)
    exact absurd rfl (hnewer d hd d hin)

theorem accounted_start (hn : targets.Nodup) : Accounted job targets (start job targets r) where
  perm := by
    have hperm := perm_named (r.tries job targets)
    rw [map_fst_tries] at hperm
    exact hperm
  delivered := fun _ => mem_delivered
  refused := fun _ => mem_refused
  newer := fun _ _ => mem_newer
  refused_missed := fun d hd => mem_missed.mpr (.inr (mem_refused.mp hd))
  once := (pairwise_tries r job hn).imp fun hne heq => absurd heq hne

theorem mem_again : d ∈ s.again job ↔
    d ∈ s.report.missed ∧ job.patient.containsKey d = true ∧ d ∉ s.report.refused := by
  rw [State.again, List.mem_filter, Bool.and_eq_true, Bool.not_eq_true', ← Bool.not_eq_true,
    List.contains_iff_mem]

theorem again_append_perm (s : State) (job : Job) :
    (s.again job ++ s.report.missed.filter fun d => !(s.again job).contains d).Perm s.report.missed := by
  have hrest : (s.report.missed.filter fun d => !(s.again job).contains d) =
      s.report.missed.filter fun d =>
        !(job.patient.containsKey d && !s.report.refused.contains d) := by
    refine List.filter_congr fun d hd => ?_
    rw [State.again, Bool.eq_iff_iff]
    simp [List.mem_filter, hd]
  rw [hrest]
  exact List.filter_append_perm _ _

/-- A retry puts whom it takes out of `missed` where their answers say. -/
theorem perm_named_retry : (named (s.retry job r).report).Perm (named s.report) := by
  rw [List.perm_iff_count]
  intro d
  have hround := (perm_named (r.tries job (s.again job))).count_eq d
  rw [map_fst_tries] at hround
  have hagain := (again_append_perm s job).count_eq d
  have hnewer := ((List.perm_insertionSort newerOrder
    (s.report.newer ++ (report (r.tries job (s.again job))).newer)).map Prod.fst).count_eq d
  unfold named State.retry
  unfold named at hround
  dsimp only
  simp only [List.count_append, (List.perm_insertionSort _ _).count_eq, List.map_append] at *
  omega

theorem Accounted.retry (h : Accounted job targets s) (hn : targets.Nodup) :
    Accounted job targets (s.retry job r) where
  perm := perm_named_retry.trans h.perm
  delivered := fun d => by
    show d ∈ (s.report.delivered ++ _).insertionSort _ ↔ _ ∈ s.tries ++ _
    rw [mem_sort, List.mem_append, List.mem_append, h.delivered, mem_delivered]
  refused := fun d => by
    show d ∈ (s.report.refused ++ _).insertionSort _ ↔ _ ∈ s.tries ++ _
    rw [mem_sort, List.mem_append, List.mem_append, h.refused, mem_refused]
  newer := fun d v => by
    show (d, v) ∈ (s.report.newer ++ _).insertionSort _ ↔ _ ∈ s.tries ++ _
    rw [mem_sort, List.mem_append, List.mem_append, h.newer, mem_newer]
  refused_missed := fun d hd => by
    replace hd : d ∈ (s.report.refused ++ _).insertionSort _ := hd
    show d ∈ ((s.report.missed.filter fun d => !(s.again job).contains d) ++ _).insertionSort _
    rw [mem_sort, List.mem_append] at hd
    rw [mem_sort, List.mem_append]
    rcases hd with hd | hd
    · have hkept : d ∉ s.again job := fun hin => (mem_again.mp hin).2.2 hd
      exact .inl (List.mem_filter.mpr ⟨h.refused_missed d hd, by simpa using hkept⟩)
    · exact .inr (mem_missed.mpr (.inr (mem_refused.mp hd)))
  once := by
    show (s.tries ++ r.tries job (s.again job)).Pairwise _
    have hnodup : (named s.report).Nodup := h.perm.nodup_iff.mpr hn
    have hagain : (s.again job).Nodup :=
      ((List.nodup_append.mp (List.nodup_append.mp hnodup).2.1).1).filter _
    rw [List.pairwise_append]
    refine ⟨h.once, (pairwise_tries r job hagain).imp fun hne heq => absurd heq hne, ?_⟩
    rintro ⟨d, o⟩ ho ⟨d', o'⟩ ho' rfl
    obtain ⟨x, hx, heq⟩ := List.mem_map.mp ho'
    obtain ⟨rfl, -⟩ := Prod.mk.inj heq
    obtain ⟨hmissed, hpatient, hrefused⟩ := mem_again.mp hx
    exact ⟨h.missed_of_tries hn hmissed hrefused ho, hpatient⟩

theorem accounted_of_retryAll (hn : targets.Nodup) (h : Accounted job targets s)
    (hs : s.retryAll job rs = some s') : Accounted job targets s' := by
  induction rs generalizing s with
  | nil =>
    unfold State.retryAll at hs
    split_ifs at hs
    cases hs
    exact h
  | cons r rs ih =>
    unfold State.retryAll at hs
    split_ifs at hs
    · cases hs
      exact h
    · exact ih (h.retry hn) hs

/-- What came of a try is what a round's answer says. -/
theorem took_of_retryAll (hs : s.retryAll job rs = some s') {o : Took} (ho : (d, o) ∈ s'.tries) :
    (d, o) ∈ s.tries ∨ ∃ r ∈ rs, o = took job.want job.wantHead (r.answers d) := by
  induction rs generalizing s with
  | nil =>
    unfold State.retryAll at hs
    split_ifs at hs
    cases hs
    exact .inl ho
  | cons r rs ih =>
    unfold State.retryAll at hs
    split_ifs at hs
    · cases hs
      exact .inl ho
    · rcases ih hs with h | ⟨r', hr', h⟩
      · rcases List.mem_append.mp h with h | h
        · exact .inl h
        · obtain ⟨x, -, heq⟩ := List.mem_map.mp h
          obtain ⟨rfl, rfl⟩ := Prod.mk.inj heq
          exact .inr ⟨r, List.mem_cons_self, rfl⟩
      · exact .inr ⟨r', List.mem_cons_of_mem _ hr', h⟩

/-- Each round after the first takes a pause of the budget. -/
theorem retryAll_isSome (h : job.budget - s.elapsed ≤ RETRY_PAUSE * (rs.length + 1)) :
    (s.retryAll job rs).isSome := by
  induction rs generalizing s with
  | nil =>
    unfold State.retryAll
    rw [if_pos (.inr (by simpa using h))]
    rfl
  | cons r rs ih =>
    unfold State.retryAll
    split_ifs
    · rfl
    · refine ih ?_
      show job.budget - (s.elapsed + RETRY_PAUSE + r.millis) ≤ _
      rw [List.length_cons, Nat.mul_succ] at h
      omega

theorem accounted_of_retrying (hn : targets.Nodup) (hs : retrying job targets rs = some s) :
    Accounted job targets s := by
  cases rs with
  | nil => cases hs
  | cons r rs => exact accounted_of_retryAll hn (accounted_start hn) hs

theorem took_of_retrying (hs : retrying job targets rs = some s) {o : Took} (ho : (d, o) ∈ s.tries) :
    ∃ r ∈ rs, o = took job.want job.wantHead (r.answers d) := by
  cases rs with
  | nil => cases hs
  | cons r rs =>
    rcases took_of_retryAll hs ho with h | ⟨r', hr', h⟩
    · obtain ⟨x, -, heq⟩ := List.mem_map.mp h
      obtain ⟨rfl, rfl⟩ := Prod.mk.inj heq
      exact ⟨r, List.mem_cons_self, rfl⟩
    · exact ⟨r', List.mem_cons_of_mem _ hr', h⟩

/-- What `missed_running` names: who is to take the policy, took one before, and neither took this one
nor holds a newer one. -/
theorem Accounted.mem_missedRunning (h : Accounted job targets s) (hn : targets.Nodup)
    (dropped : List NodeId) (reached : SortedSet NodeId) :
    d ∈ ({ s.report with dropped := dropped }).missedRunning reached ↔
      d ∈ targets ∧ d ∉ dropped ∧ reached.containsKey d = true ∧ d ∉ s.report.delivered ∧
        d ∉ s.report.newer.map Prod.fst := by
  have hnodup : (named s.report).Nodup := h.perm.nodup_iff.mpr hn
  have hmem := h.perm.mem_iff (a := d)
  unfold named at hnodup hmem
  rw [List.nodup_append] at hnodup
  obtain ⟨-, hrest, hdelivered⟩ := hnodup
  rw [List.nodup_append] at hrest
  obtain ⟨-, -, hnewer⟩ := hrest
  rw [List.mem_append, List.mem_append] at hmem
  rw [PublishReport.missedRunning, List.mem_filter, Bool.and_eq_true, Bool.not_eq_true',
    ← Bool.not_eq_true, List.contains_iff_mem]
  constructor
  · rintro ⟨hmissed, hdropped, hreached⟩
    refine ⟨hmem.mp (.inr (.inl hmissed)), hdropped, hreached, fun hin => ?_, fun hin => ?_⟩
    · exact hdelivered d hin d (List.mem_append_left _ hmissed) rfl
    · exact hnewer d hmissed d hin rfl
  · rintro ⟨htarget, hdropped, hreached, hno, hnot⟩
    rcases hmem.mpr htarget with h | h | h
    · exact absurd h hno
    · exact ⟨h, hdropped, hreached⟩
    · exact absurd h hnot

/-! ## The admin's publish -/

theorem mem_targets {directories earlier : List NodeId} {me : NodeId} :
    d ∈ Publish.targets directories earlier me ↔ (d ∈ directories ∨ d ∈ earlier) ∧ d ≠ me := by
  rw [Publish.targets, SortedMap.mem_keys_collect, List.map_map]
  simp [or_and_right]

theorem nodup_targets (directories earlier : List NodeId) (me : NodeId) :
    (Publish.targets directories earlier me).Nodup := SortedMap.nodup_keys _

end Publish

/-- **A publish accounts for every directory.** For every list of targets that names none twice,
whomever it is patient with and whatever they answer, round after round: the loop ends within the
rounds that its budget has pauses for; each target is in exactly one list of its report, those that
refused among the missed; a target that is tried again missed every try before, and is one to be
patient with; one that is reported as delivered answered with the very version and head published;
and `missed_running` names the targets that the head lists and that took a publish before, but for
those that took this one or hold a newer policy. -/
theorem published_or_missed (job : Publish.Job) (targets : List NodeId) (hn : targets.Nodup)
    (rs : List Publish.Round) :
    (rs ≠ [] → job.budget ≤ RETRY_PAUSE * rs.length → (Publish.retrying job targets rs).isSome) ∧
    ∀ s, Publish.retrying job targets rs = some s →
      (s.report.delivered ++ (s.report.missed ++ s.report.newer.map Prod.fst)).Perm targets ∧
      (∀ d, d ∈ s.report.refused ↔ (d, .refused) ∈ s.tries) ∧
      (∀ d ∈ s.report.refused, d ∈ s.report.missed) ∧
      (∀ d o, (d, o) ∈ s.tries → ∃ r ∈ rs, o = Publish.took job.want job.wantHead (r.answers d)) ∧
      s.tries.Pairwise (fun a b => a.1 = b.1 → a.2 = .missed ∧ job.patient.containsKey a.1 = true) ∧
      (∀ d ∈ s.report.delivered, ∃ r ∈ rs, r.answers d = some (.published job.want job.wantHead)) ∧
      ∀ dropped reached d, d ∈ ({ s.report with dropped := dropped }).missedRunning reached ↔
        d ∈ targets ∧ d ∉ dropped ∧ reached.containsKey d = true ∧ d ∉ s.report.delivered ∧
          d ∉ s.report.newer.map Prod.fst := by
  refine ⟨fun hne hbudget => ?_, fun s hs => ?_⟩
  · cases rs with
    | nil => exact absurd rfl hne
    | cons r rs =>
      refine Publish.retryAll_isSome ?_
      rw [List.length_cons] at hbudget
      omega
  · have h := Publish.accounted_of_retrying hn hs
    refine ⟨h.perm, h.refused, h.refused_missed, fun d o ho => Publish.took_of_retrying hs ho, h.once,
      fun d hd => ?_, fun dropped reached d => h.mem_missedRunning hn dropped reached⟩
    obtain ⟨r, hr, heq⟩ := Publish.took_of_retrying hs ((h.delivered d).mp hd)
    exact ⟨r, hr, Publish.took_eq_delivered.mp heq.symm⟩

/-! ## Two directories -/

section Sample

/-- One takes the policy; the other cannot be reached, and then holds a newer one. -/
def sampleRounds : List Publish.Round :=
  [⟨fun d => if d = Bytes.fill 32 1 then some (.published 3 (Bytes.fill 32 9)) else none, 10⟩,
    ⟨fun _ => some (.published 4 (Bytes.fill 32 8)), 10⟩]

/-- A publish of version 3, to both. -/
def sampleJob : Publish.Job :=
  ⟨3, Bytes.fill 32 9, (∅ : SortedSet NodeId).insert (Bytes.fill 32 2) (), PUBLISH_BUDGET⟩

theorem retrying_sample : ∃ s,
    Publish.retrying sampleJob [Bytes.fill 32 1, Bytes.fill 32 2] sampleRounds = some s ∧
      s.report = ⟨[Bytes.fill 32 1], [], [], [], [(Bytes.fill 32 2, 4)]⟩ :=
  Option.map_eq_some_iff.mp (by decide)

theorem published_or_missed_sample : ∃ s,
    Publish.retrying sampleJob [Bytes.fill 32 1, Bytes.fill 32 2] sampleRounds = some s ∧
      ∀ d ∈ s.report.delivered, ∃ r ∈ sampleRounds,
        r.answers d = some (.published 3 (Bytes.fill 32 9)) := by
  obtain ⟨s, hs, -⟩ := retrying_sample
  have h := (published_or_missed sampleJob [Bytes.fill 32 1, Bytes.fill 32 2] (by decide)
    sampleRounds).2 s hs
  exact ⟨s, hs, h.2.2.2.2.2.1⟩

/-- A target that took an earlier publish and not this one, which `missed_running` does not name. -/
theorem not_named_when_newer : ∃ s d,
    Publish.retrying sampleJob [Bytes.fill 32 1, Bytes.fill 32 2] sampleRounds = some s ∧
      d ∈ [Bytes.fill 32 1, Bytes.fill 32 2] ∧
      ((∅ : SortedSet NodeId).insert (Bytes.fill 32 2) ()).containsKey d = true ∧
      d ∉ s.report.delivered ∧
      d ∉ s.report.missedRunning ((∅ : SortedSet NodeId).insert (Bytes.fill 32 2) ()) := by
  obtain ⟨s, hs, hreport⟩ := retrying_sample
  refine ⟨s, Bytes.fill 32 2, hs, by decide, by decide, ?_, ?_⟩
  · rw [hreport]
    decide
  · rw [hreport]
    decide

end Sample

end Wires
