import Wires.Impl.Pick
import Mathlib.Data.List.TakeWhile

/-!
# Which hosts go last

The hosts a call tries are its service's, each of them; those that did not fail
lately come first, as they were drawn, and then the others, the oldest failure
first (`candidates_eq`). Whatever calls run at once, a host goes last only where
some call moved past it within the minute (`demoted_for_cause`): what a lost or
stale write takes away is a demotion, never a host. Where calls come one after
another, those go last that the last call to meet them moved past within the
minute, and no others (`demoted_exactly`).
-/

namespace Wires

namespace Pick

variable {u : Unanswered} {a : Answered} {g h host : NodeId} {at_ now : Int64}
  {log : List Answered} {hosts shuffled tried : List NodeId}

/-! ## What is remembered -/

/-- `saturating_sub` tells the same times from each other as a subtraction would. -/
theorem recent_iff (now at_ : Int64) : recent now at_ = true ↔ now.toInt < at_.toInt + 60 := by
  have hsixty : DEMOTE_SECS.toInt = 60 := by decide
  rw [recent, decide_eq_true_eq, Int64.lt_iff_toInt_lt, toInt_satSub, hsixty]
  omega

theorem recent_self (now : Int64) : recent now now = true := by
  rw [recent_iff]
  omega

theorem get?_foldl_insert (hs : List NodeId) (u : Unanswered) (now : Int64) (h : NodeId) :
    (hs.foldl (fun u h => u.insert h now) u).get? h = if h ∈ hs then some now else u.get? h := by
  induction hs generalizing u with
  | nil => simp
  | cons g hs ih =>
    rw [List.foldl_cons, ih, SortedMap.get?_insert]
    by_cases hmem : h ∈ hs
    · simp [hmem]
    · by_cases heq : h = g
      · simp [heq]
      · simp [hmem, heq]

/-- What is remembered of a host, once a call is noted. -/
theorem get?_note (u : Unanswered) (a : Answered) (h : NodeId) :
    (u.note a).get? h = if h = a.host then none
      else if h ∈ a.passed then some a.now else (u.get? h).filter (recent a.now) := by
  rw [Unanswered.note, SortedMap.get?_retain, SortedMap.get?_erase, get?_foldl_insert]
  split_ifs with hhost hpassed
  · rfl
  · simp [recent_self]
  · rfl

/-! ## The order -/

theorem earlier_trans {x y z : Option Int64} (hxy : earlier x y = true) (hyz : earlier y z = true) :
    earlier x z = true := by
  cases x with
  | none => rfl
  | some a =>
    cases y with
    | none => cases hxy
    | some b =>
      cases z with
      | none => cases hyz
      | some c =>
        have hab : a ≤ b := of_decide_eq_true hxy
        have hbc : b ≤ c := of_decide_eq_true hyz
        exact decide_eq_true (Int64.le_trans hab hbc)

theorem earlier_total (x y : Option Int64) : earlier x y = true ∨ earlier y x = true := by
  cases x with
  | none => exact .inl rfl
  | some a =>
    cases y with
    | none => exact .inr rfl
    | some b =>
      rcases Int64.le_total a b with hab | hba
      · exact .inl (decide_eq_true hab)
      · exact .inr (decide_eq_true hba)

/-- A list in order has what has no key first. -/
theorem eq_filter_append {α : Type} {key : α → Option Int64} {l : List α}
    (hl : l.Pairwise fun x y => earlier (key x) (key y) = true) :
    l = l.filter (fun x => (key x).isNone) ++ l.filter fun x => (key x).isSome := by
  induction l with
  | nil => rfl
  | cons x l ih =>
    obtain ⟨hx, hl⟩ := List.pairwise_cons.mp hl
    cases hkey : key x with
    | none =>
      rw [List.filter_cons_of_pos (by simp [hkey]), List.filter_cons_of_neg (by simp [hkey]),
        List.cons_append, ← ih hl]
    | some t =>
      have hsome : ∀ y ∈ l, (key y).isSome = true := by
        intro y hy
        have hle := hx y hy
        rw [hkey] at hle
        cases hy : key y with
        | none =>
          rw [hy] at hle
          cases hle
        | some r => rfl
      have hnone : l.filter (fun y => (key y).isNone) = [] := by
        apply List.filter_eq_nil_iff.mpr
        intro y hy
        simp [Option.isSome_iff_ne_none.mp (hsome y hy)]
      rw [List.filter_cons_of_neg (by simp [hkey]), List.filter_cons_of_pos (by simp [hkey]), hnone,
        List.filter_eq_self.mpr hsome]
      rfl

theorem candidates_perm (u : Unanswered) (now : Int64) (shuffled : List NodeId) :
    (candidates u now shuffled).Perm shuffled :=
  List.mergeSort_perm _ _

/-- `late` go last of `shuffled`: those that have a `key`, the oldest first. -/
structure Late (key : NodeId → Option Int64) (shuffled tried late : List NodeId) : Prop where
  tried : tried = shuffled.filter (fun h => (key h).isNone) ++ late
  perm : late.Perm (shuffled.filter fun h => (key h).isSome)
  oldest : late.Pairwise fun g h => ∃ r t, key g = some r ∧ key h = some t ∧ r ≤ t

theorem Late.congr {key key' : NodeId → Option Int64} {late : List NodeId}
    (h : Late key shuffled tried late) (hkey : ∀ h, key h = key' h) :
    Late key' shuffled tried late := by
  rw [← funext hkey]
  exact h

/-- What a call is to try: every host, those that failed lately after the others. -/
theorem candidates_eq (u : Unanswered) (now : Int64) (shuffled : List NodeId) :
    ∃ late, Late (fun h => u.failedRecently h now) shuffled (candidates u now shuffled) late := by
  have hperm := candidates_perm u now shuffled
  have hsorted : (candidates u now shuffled).Pairwise fun g h =>
      earlier (u.failedRecently g now) (u.failedRecently h now) = true := by
    apply List.pairwise_mergeSort
    · intro f g h
      exact earlier_trans
    · intro g h
      rw [Bool.or_eq_true]
      exact earlier_total _ _
  have hfirst : (candidates u now shuffled).filter (fun h => (u.failedRecently h now).isNone) =
      shuffled.filter fun h => (u.failedRecently h now).isNone := by
    -- Those without a key are in order as drawn, and the sort is stable.
    have hdrawn : (shuffled.filter fun h => (u.failedRecently h now).isNone).Sublist
        (candidates u now shuffled) := by
      apply List.sublist_mergeSort
      · intro f g h
        exact earlier_trans
      · intro g h
        rw [Bool.or_eq_true]
        exact earlier_total _ _
      · apply List.pairwise_of_forall_mem_list
        intro g hg h _
        have hnone : u.failedRecently g now = none := by simpa using (List.mem_filter.mp hg).2
        rw [hnone]
        rfl
      · exact List.filter_sublist
    have hsub := hdrawn.filter fun h => (u.failedRecently h now).isNone
    rw [List.filter_filter] at hsub
    simp only [Bool.and_self] at hsub
    exact (hsub.eq_of_length (hperm.filter _).length_eq.symm).symm
  refine ⟨(candidates u now shuffled).filter fun h => (u.failedRecently h now).isSome, ?_, ?_, ?_⟩
  · rw [← hfirst]
    exact eq_filter_append hsorted
  · exact hperm.filter _
  · apply (hsorted.filter _).imp_of_mem
    intro g h hg hh hle
    obtain ⟨r, hr⟩ := Option.isSome_iff_exists.mp (List.mem_filter.mp hg).2
    obtain ⟨t, ht⟩ := Option.isSome_iff_exists.mp (List.mem_filter.mp hh).2
    rw [hr, ht] at hle
    exact ⟨r, t, hr, ht, of_decide_eq_true hle⟩

/-- Where nothing is remembered, the order is as drawn. -/
theorem candidates_empty (now : Int64) (shuffled : List NodeId) :
    candidates ∅ now shuffled = shuffled := by
  apply List.mergeSort_of_pairwise
  apply List.pairwise_of_forall_mem_list
  intro g _ h _
  rfl

/-! ## Calls at once -/

/-- What `u` remembers was there at first, or is of a call that moved past the host. -/
def Noted (file : Unanswered) (log : List Answered) (u : Unanswered) : Prop :=
  ∀ h at_, u.get? h = some at_ →
    file.get? h = some at_ ∨ ∃ a ∈ log, h ∈ a.passed ∧ a.now = at_

section

variable {file : Unanswered}

theorem noted_empty : Noted file log ∅ := by
  intro h at_ hget
  cases hget

theorem Noted.cons (hu : Noted file log u) (a : Answered) : Noted file (a :: log) u := by
  intro h at_ hget
  rcases hu h at_ hget with hfile | ⟨b, hb, hpassed⟩
  · exact .inl hfile
  · exact .inr ⟨b, List.mem_cons_of_mem _ hb, hpassed⟩

theorem Noted.note (hu : Noted file log u) (ha : a ∈ log) : Noted file log (u.note a) := by
  intro h at_ hget
  rw [get?_note] at hget
  split_ifs at hget with hhost hpassed
  · obtain rfl := Option.some.inj hget
    exact .inr ⟨a, ha, hpassed, rfl⟩
  · exact hu h at_ (Option.filter_eq_some_iff.mp hget).1

end

namespace Picking

variable {ι : Type} [DecidableEq ι] {file : Unanswered} {s t : Picking ι} {e : PickEvent ι}
  {es fs : List (PickEvent ι)} {i : ι} {readable : Bool}

/-- What a step does: one call goes on, and the file and the log with it. -/
inductive Goes (s : Picking ι) : PickEvent ι → Picking ι → Prop where
  | begins {i : ι} {hosts shuffled : List NodeId} {now : Int64} {readable : Bool}
      (hi : s.calls i = none) (hperm : shuffled.Perm hosts) (hne : hosts ≠ []) :
      Goes s (.begins i hosts shuffled now readable)
        (s.goes i (some (.dials (candidates (s.load readable) now shuffled) now)))
  | answers {i : ι} {host : NodeId} {tried : List NodeId} {now : Int64} {readable : Bool}
      (hi : s.calls i = some (.dials tried now)) (hhost : host ∈ tried) :
      Goes s (.answers i host readable)
        { s.goes i (some (.records ⟨tried, host, now⟩ (s.load readable))) with
          log := ⟨tried, host, now⟩ :: s.log }
  | saves {i : ι} {a : Answered} {before : Unanswered}
      (hi : s.calls i = some (.records a before)) :
      Goes s (.saves i true) { s.goes i none with file := before.note a }
  | keeps {i : ι} {a : Answered} {before : Unanswered} {written : Bool}
      (hi : s.calls i = some (.records a before))
      (hsame : written = true → before.note a = before) :
      Goes s (.saves i written) (s.goes i none)
  | fails {i : ι} {tried : List NodeId} {now : Int64}
      (hi : s.calls i = some (.dials tried now)) :
      Goes s (.fails i) (s.goes i none)

theorem goes_of_step (h : s.step e = some t) : Goes s e t := by
  cases e with
  | begins i hosts shuffled now readable =>
    simp only [step] at h
    split at h
    · rename_i hi
      split_ifs at h with hcan
      obtain rfl := Option.some.inj h
      exact .begins hi hcan.1 hcan.2
    · cases h
  | answers i host readable =>
    simp only [step] at h
    split at h
    · rename_i tried now hi
      split_ifs at h with hhost
      obtain rfl := Option.some.inj h
      exact .answers hi (List.contains_iff_mem.mp hhost)
    · cases h
  | saves i written =>
    simp only [step] at h
    split at h
    · rename_i a before hi
      split_ifs at h with hcan
      · obtain rfl := Option.some.inj h
        obtain ⟨rfl, -⟩ := hcan
        exact .saves hi
      · obtain rfl := Option.some.inj h
        exact .keeps hi fun hwritten => not_not.mp fun hne => hcan ⟨hwritten, hne⟩
    · cases h
  | fails i =>
    simp only [step] at h
    split at h
    · rename_i tried now hi
      obtain rfl := Option.some.inj h
      exact .fails hi
    · cases h

/-- What is so of a call, wherever it is. -/
def Stands (file : Unanswered) (es : List (PickEvent ι)) (log : List Answered) (i : ι) :
    Option PickStage → Prop
  | none => True
  | some (.dials tried now) => ∃ hosts shuffled readable u,
      .begins i hosts shuffled now readable ∈ es ∧ shuffled.Perm hosts ∧
        tried = candidates u now shuffled ∧ Noted file log u
  | some (.records a before) => a ∈ log ∧ Noted file log before

omit [DecidableEq ι] in
theorem Stands.append {stage : Option PickStage} (h : Stands file es log i stage) :
    Stands file (es ++ fs) log i stage := by
  cases stage with
  | none => trivial
  | some stage =>
    cases stage with
    | dials tried now =>
      obtain ⟨hosts, shuffled, readable, u, hbegins, hrest⟩ := h
      exact ⟨hosts, shuffled, readable, u, List.mem_append_left _ hbegins, hrest⟩
    | records a before => exact h

omit [DecidableEq ι] in
theorem Stands.cons {stage : Option PickStage} (h : Stands file es log i stage) (a : Answered) :
    Stands file es (a :: log) i stage := by
  cases stage with
  | none => trivial
  | some stage =>
    cases stage with
    | dials tried now =>
      obtain ⟨hosts, shuffled, readable, u, hbegins, hperm, htried, hnoted⟩ := h
      exact ⟨hosts, shuffled, readable, u, hbegins, hperm, htried, hnoted.cons a⟩
    | records b before => exact ⟨List.mem_cons_of_mem _ h.1, h.2.cons a⟩

/-- The file, and what every call has read of it, is of calls that moved past a host. -/
structure Good (file : Unanswered) (es : List (PickEvent ι)) (s : Picking ι) : Prop where
  noted : Noted file s.log s.file
  calls : ∀ i, Stands file es s.log i (s.calls i)

omit [DecidableEq ι] in
theorem Good.load (h : Good file es s) (readable : Bool) : Noted file s.log (s.load readable) := by
  cases readable with
  | true => exact h.noted
  | false => exact noted_empty

/-- The other calls stand as they did. -/
theorem Good.goes (h : Good file es s) (e : PickEvent ι) {stage : Option PickStage}
    (hstage : Stands file (es ++ [e]) s.log i stage) (j : ι) :
    Stands file (es ++ [e]) s.log j ((s.goes i stage).calls j) := by
  by_cases hj : j = i
  · subst hj
    show Stands file (es ++ [e]) s.log j (Function.update s.calls j stage j)
    rw [Function.update_self]
    exact hstage
  · show Stands file (es ++ [e]) s.log j (Function.update s.calls i stage j)
    rw [Function.update_of_ne hj]
    exact (h.calls j).append

theorem Good.leaves (h : Good file es s) (e : PickEvent ι) (i : ι) (j : ι) :
    Stands file (es ++ [e]) s.log j ((s.goes i none).calls j) := by
  have hnone : Stands file (es ++ [e]) s.log i none := trivial
  exact h.goes e hnone j

theorem Good.step (h : Good file es s) (hm : Goes s e t) : Good file (es ++ [e]) t := by
  cases hm with
  | @begins i hosts shuffled now readable hi hperm hne =>
    refine ⟨h.noted, h.goes _ ?_⟩
    exact ⟨hosts, shuffled, readable, _, by simp, hperm, rfl, h.load readable⟩
  | @answers i host tried now readable hi hhost =>
    refine ⟨h.noted.cons _, fun j => ?_⟩
    by_cases hj : j = i
    · subst hj
      show Stands file _ (⟨tried, host, now⟩ :: s.log) j (Function.update s.calls j _ j)
      rw [Function.update_self]
      exact ⟨List.mem_cons_self, (h.load readable).cons _⟩
    · show Stands file _ (⟨tried, host, now⟩ :: s.log) j (Function.update s.calls i _ j)
      rw [Function.update_of_ne hj]
      exact (h.calls j).append.cons _
  | @saves i a before hi =>
    have hstands := h.calls i
    rw [hi] at hstands
    exact ⟨hstands.2.note hstands.1, h.leaves _ i⟩
  | @keeps i _ _ _ hi _ => exact ⟨h.noted, h.leaves _ i⟩
  | @fails i _ _ hi => exact ⟨h.noted, h.leaves _ i⟩

omit [DecidableEq ι] in
theorem good_start (file : Unanswered) : Good file [] (start file : Picking ι) where
  noted _ _ hget := .inl hget
  calls _ := trivial

theorem good_of_run (hrun : run step (start file) es = some s) : Good file es s :=
  run_induction (motive := Good file) (good_start file)
    (fun _ _ _ _ _ h hs => h.step (goes_of_step hs)) hrun

/-- **Who goes last went unanswered.** In any run, with any number of calls at once and any of their
reads and writes failing or lost, a call tries the hosts of its service, each of them; and those it
tries last were moved past by a call within the minute, unless the file said so from the start. -/
theorem demoted_for_cause (hrun : run step (start file) es = some s)
    (hcall : s.calls i = some (.dials tried now)) :
    ∃ hosts shuffled readable, .begins i hosts shuffled now readable ∈ es ∧ tried.Perm hosts ∧
      ∃ key late, Late key shuffled tried late ∧ ∀ h at_, key h = some at_ →
        now.toInt < at_.toInt + 60 ∧
          (file.get? h = some at_ ∨ ∃ a ∈ s.log, h ∈ a.passed ∧ a.now = at_) := by
  have hstands := (good_of_run hrun).calls i
  rw [hcall] at hstands
  obtain ⟨hosts, shuffled, readable, u, hbegins, hperm, rfl, hnoted⟩ := hstands
  obtain ⟨late, hlate⟩ := candidates_eq u now shuffled
  refine ⟨hosts, shuffled, readable, hbegins, (candidates_perm u now shuffled).trans hperm, _, late,
    hlate, fun h at_ hkey => ?_⟩
  obtain ⟨hget, hrecent⟩ := Option.filter_eq_some_iff.mp hkey
  exact ⟨(recent_iff now at_).mp hrecent, hnoted h at_ hget⟩

/-! ### One call after another -/

/-- When the last call to meet a host moved past it, if it did. -/
def missed (h : NodeId) : List Answered → Option Int64
  | [] => none
  | a :: log => if h = a.host then none else if a.passed.contains h then some a.now else missed h log

/-- `u` tells of each host what the last call to meet it found. -/
def Exact (u : Unanswered) (log : List Answered) : Prop :=
  ∀ h now, (∀ a ∈ log, a.now ≤ now) → u.failedRecently h now = (missed h log).filter (recent now)

theorem exact_empty : Exact ∅ [] := fun _ _ _ => rfl

theorem Exact.note (hu : Exact u log) (htimes : ∀ b ∈ log, b.now ≤ a.now) :
    Exact (u.note a) (a :: log) := by
  intro h now hall
  have hnow : a.now ≤ now := hall a List.mem_cons_self
  rw [Unanswered.failedRecently, get?_note, missed]
  simp only [List.contains_iff_mem]
  split_ifs with hhost hpassed
  · rfl
  · rfl
  · have hold := hu h now fun b hb => Int64.le_trans (htimes b hb) hnow
    rw [← hold, Unanswered.failedRecently]
    -- What `note` drops is as old by any later clock.
    have hlater : ∀ x, recent now x = true → recent a.now x = true := by
      intro x hx
      rw [recent_iff] at hx ⊢
      have hle := Int64.le_iff_toInt_le.mp hnow
      omega
    cases u.get? h with
    | none => rfl
    | some x =>
      by_cases hx : recent now x = true
      · simp [Option.filter, hx, hlater x hx]
      · by_cases hx' : recent a.now x = true
        · simp [Option.filter, hx, hx']
        · simp [Option.filter, hx, hx']

/-- No call begins while another runs, or by an earlier clock than one before it, and every read and
every write is made. -/
def Alone (s : Picking ι) : PickEvent ι → Prop
  | .begins _ _ _ now readable =>
    (∀ j, s.calls j = none) ∧ (∀ a ∈ s.log, a.now ≤ now) ∧ readable = true
  | .answers _ _ readable => readable = true
  | .saves _ written => written = true
  | .fails _ => True

/-- The one call there is, if any, and what the file tells meanwhile. -/
inductive Serial (es : List (PickEvent ι)) (s : Picking ι) : Prop where
  | idle (hcalls : s.calls = fun _ => none) (hexact : Exact s.file s.log)
  | dials {i : ι} {hosts shuffled : List NodeId} {now : Int64}
      (hcalls : s.calls =
        Function.update (fun _ => none) i (some (.dials (candidates s.file now shuffled) now)))
      (hexact : Exact s.file s.log) (htimes : ∀ a ∈ s.log, a.now ≤ now)
      (hbegins : .begins i hosts shuffled now true ∈ es) (hperm : shuffled.Perm hosts)
  | records {i : ι} {a : Answered} {log : List Answered}
      (hcalls : s.calls = Function.update (fun _ => none) i (some (.records a s.file)))
      (hlog : s.log = a :: log) (hexact : Exact s.file log) (htimes : ∀ b ∈ log, b.now ≤ a.now)

theorem eq_of_update {stage : PickStage} {o : PickStage} {j : ι}
    (h : Function.update (fun _ => none) i (some stage) j = some o) : j = i ∧ o = stage := by
  by_cases hj : j = i
  · subst hj
    rw [Function.update_self] at h
    exact ⟨rfl, (Option.some.inj h).symm⟩
  · rw [Function.update_of_ne hj] at h
    cases h

theorem goes_none {stage : Option PickStage}
    (hcalls : s.calls = Function.update (fun _ => none) i stage) :
    (s.goes i none).calls = fun _ => none := by
  show Function.update s.calls i none = _
  rw [hcalls, Function.update_idem, Function.update_eq_self_iff]

theorem Serial.of_none (h : Serial es s) (hnone : ∀ j, s.calls j = none) : Exact s.file s.log := by
  cases h with
  | idle _ hexact => exact hexact
  | dials _ hexact => exact hexact
  | @records j a log hcalls =>
    have hj := hnone j
    rw [hcalls, Function.update_self] at hj
    cases hj

theorem Serial.of_dials (h : Serial es s) (hi : s.calls i = some (.dials tried now)) :
    s.calls = Function.update (fun _ => none) i (some (.dials tried now)) ∧ Exact s.file s.log ∧
      (∀ a ∈ s.log, a.now ≤ now) ∧ ∃ hosts shuffled, .begins i hosts shuffled now true ∈ es ∧
        shuffled.Perm hosts ∧ tried = candidates s.file now shuffled := by
  cases h with
  | idle hcalls =>
    rw [hcalls] at hi
    cases hi
  | @dials j hosts shuffled now' hcalls hexact htimes hbegins hperm =>
    rw [hcalls] at hi
    obtain ⟨rfl, hstage⟩ := eq_of_update hi
    obtain ⟨rfl, rfl⟩ := PickStage.dials.inj hstage
    exact ⟨hcalls, hexact, htimes, hosts, shuffled, hbegins, hperm, rfl⟩
  | records hcalls =>
    rw [hcalls] at hi
    obtain ⟨-, hstage⟩ := eq_of_update hi
    cases hstage

theorem Serial.of_records {before : Unanswered} (h : Serial es s)
    (hi : s.calls i = some (.records a before)) :
    s.calls = Function.update (fun _ => none) i (some (.records a before)) ∧ before = s.file ∧
      ∃ log, s.log = a :: log ∧ Exact s.file log ∧ ∀ b ∈ log, b.now ≤ a.now := by
  cases h with
  | idle hcalls =>
    rw [hcalls] at hi
    cases hi
  | dials hcalls =>
    rw [hcalls] at hi
    obtain ⟨-, hstage⟩ := eq_of_update hi
    cases hstage
  | @records j a' log hcalls hlog hexact htimes =>
    rw [hcalls] at hi
    obtain ⟨rfl, hstage⟩ := eq_of_update hi
    obtain ⟨rfl, rfl⟩ := PickStage.records.inj hstage
    exact ⟨hcalls, rfl, log, hlog, hexact, htimes⟩

theorem Serial.step (h : Serial es s) (halone : Alone s e) (hm : Goes s e t) :
    Serial (es ++ [e]) t := by
  cases hm with
  | @begins i hosts shuffled now readable hi hperm hne =>
    obtain ⟨hnone, htimes, rfl⟩ := halone
    refine @Serial.dials ι _ _ _ i hosts shuffled now ?_ (h.of_none hnone) htimes (by simp) hperm
    show Function.update s.calls i _ = _
    rw [funext hnone]
    rfl
  | @answers i host tried now readable hi hhost =>
    obtain rfl : readable = true := halone
    obtain ⟨hcalls, hexact, htimes, -⟩ := h.of_dials hi
    refine @Serial.records ι _ _ _ i _ s.log ?_ rfl hexact htimes
    show Function.update s.calls i _ = _
    rw [hcalls, Function.update_idem]
    rfl
  | @saves i a before hi =>
    obtain ⟨hcalls, rfl, log, hlog, hexact, htimes⟩ := h.of_records hi
    refine .idle (goes_none hcalls) ?_
    show Exact (s.file.note a) s.log
    rw [hlog]
    exact hexact.note htimes
  | @keeps i a before written hi hsame =>
    obtain rfl : written = true := halone
    obtain ⟨hcalls, rfl, log, hlog, hexact, htimes⟩ := h.of_records hi
    refine .idle (goes_none hcalls) ?_
    show Exact s.file s.log
    -- The file has what `note` would make of it.
    have hnoted := hexact.note htimes
    rw [hsame rfl] at hnoted
    rw [hlog]
    exact hnoted
  | @fails i tried now hi =>
    obtain ⟨hcalls, hexact, -⟩ := h.of_dials hi
    exact .idle (goes_none hcalls) hexact

theorem serial_of_run (hrun : run step (start ∅) es = some s)
    (halone : Along step Alone (start ∅) es) : Serial es s := by
  refine run_induction (motive := fun es s => Along step Alone (start ∅) es → Serial es s)
    (fun _ => .idle rfl exact_empty) ?_ hrun halone
  intro es e s t hs ih hstep halong
  obtain ⟨hbefore, hlast⟩ := along_append.mp halong
  exact (ih hbefore).step (hlast s hs).1 (goes_of_step hstep)

/-- **Those that are down go last.** Where calls come one after another, a call tries last exactly the
hosts of its service that the last call to meet them moved past, within the minute, the one that
was longest ago first. -/
theorem demoted_exactly (hrun : run step (start ∅) es = some s)
    (halone : Along step Alone (start ∅) es) (hcall : s.calls i = some (.dials tried now)) :
    ∃ hosts shuffled late, .begins i hosts shuffled now true ∈ es ∧ tried.Perm hosts ∧
      Late (fun h => (missed h s.log).filter (recent now)) shuffled tried late := by
  obtain ⟨-, hexact, htimes, hosts, shuffled, hbegins, hperm, rfl⟩ :=
    (serial_of_run hrun halone).of_dials hcall
  obtain ⟨late, hlate⟩ := candidates_eq s.file now shuffled
  exact ⟨hosts, shuffled, late, hbegins, (candidates_perm s.file now shuffled).trans hperm,
    hlate.congr fun h => hexact h now htimes⟩

/-! ### Two calls -/

def sampleDown : NodeId := Bytes.fill 32 1

def sampleUp : NodeId := Bytes.fill 32 2

/-- A call that is answered by the second host, and the next. -/
def sampleCalls : List (PickEvent Bool) :=
  [.begins false [sampleDown, sampleUp] [sampleDown, sampleUp] 100 true, .answers false sampleUp true,
    .saves false true, .begins true [sampleDown, sampleUp] [sampleDown, sampleUp] 130 true]

theorem step_begins (hi : s.calls i = none) (hperm : shuffled.Perm hosts) (hne : hosts ≠ []) :
    step s (.begins i hosts shuffled now readable) =
      some (s.goes i (some (.dials (candidates (s.load readable) now shuffled) now))) := by
  simp only [step, hi]
  rw [if_pos ⟨hperm, hne⟩]

theorem step_answers (hi : s.calls i = some (.dials tried now)) (hhost : host ∈ tried) :
    step s (.answers i host readable) =
      some { s.goes i (some (.records ⟨tried, host, now⟩ (s.load readable))) with
        log := ⟨tried, host, now⟩ :: s.log } := by
  simp only [step, hi]
  rw [if_pos (List.contains_iff_mem.mpr hhost)]

theorem exists_saves {before : Unanswered} {written : Bool}
    (hi : s.calls i = some (.records a before)) :
    ∃ file, step s (.saves i written) = some { s.goes i none with file } := by
  simp only [step, hi]
  split_ifs
  · exact ⟨_, rfl⟩
  · exact ⟨s.file, rfl⟩

/-- The first of them, once it is answered. -/
def sampleFirst : Answered := ⟨[sampleDown, sampleUp], sampleUp, 100⟩

/-- While it dials. -/
def sampleDialing : Picking Bool :=
  (start ∅).goes false (some (.dials sampleFirst.tried sampleFirst.now))

/-- While it records. -/
def sampleRecording : Picking Bool :=
  { sampleDialing.goes false (some (.records sampleFirst ∅)) with log := [sampleFirst] }

theorem run_sampleCalls : ∃ (s : Picking Bool) (tried : List NodeId),
    run step (start ∅) sampleCalls = some s ∧ s.calls true = some (.dials tried 130) ∧
      s.log = [sampleFirst] ∧ Along step Alone (start ∅) sampleCalls := by
  have h₁ : step (start ∅) (.begins false [sampleDown, sampleUp] [sampleDown, sampleUp] 100 true) =
      some sampleDialing := by
    have hload : (start ∅ : Picking Bool).load true = ∅ := rfl
    rw [step_begins rfl (.refl _) (by simp), hload, candidates_empty]
    rfl
  have h₂ : step sampleDialing (.answers false sampleUp true) = some sampleRecording :=
    step_answers rfl (by simp)
  obtain ⟨file, h₃⟩ := @exists_saves sampleFirst Bool _ sampleRecording false ∅ true rfl
  have hnone : ∀ j,
      ({ sampleRecording.goes false none with file } : Picking Bool).calls j = none := by
    intro j
    cases j with
    | false => rfl
    | true => rfl
  have h₄ := @step_begins 130 [sampleDown, sampleUp] [sampleDown, sampleUp] Bool _
    { sampleRecording.goes false none with file } true true (hnone true) (.refl _) (by simp)
  refine ⟨_, _, run_cons.mpr ⟨_, h₁, run_cons.mpr ⟨_, h₂, run_cons.mpr ⟨_, h₃,
    run_cons.mpr ⟨_, h₄, run_nil.mpr rfl⟩⟩⟩⟩, rfl, rfl, ⟨fun _ => rfl, by simp [start], rfl⟩,
    fun t ht => ?_⟩
  obtain rfl := Option.some.inj (h₁.symm.trans ht)
  refine ⟨rfl, fun t ht => ?_⟩
  obtain rfl := Option.some.inj (h₂.symm.trans ht)
  refine ⟨rfl, fun t ht => ?_⟩
  obtain rfl := Option.some.inj (h₃.symm.trans ht)
  refine ⟨⟨hnone, ?_, rfl⟩, fun _ _ => trivial⟩
  intro a ha
  obtain rfl := List.mem_singleton.mp ha
  show (100 : Int64) ≤ 130
  decide

theorem demoted_for_cause_sample : ∃ (s : Picking Bool) (tried : List NodeId),
    run step (start ∅) sampleCalls = some s ∧ s.calls true = some (.dials tried 130) ∧
      tried.Perm [sampleDown, sampleUp] := by
  obtain ⟨s, tried, hrun, hcall, -, -⟩ := run_sampleCalls
  obtain ⟨hosts, shuffled, readable, hbegins, hperm, -⟩ := demoted_for_cause hrun hcall
  have hhosts : hosts = [sampleDown, sampleUp] := by
    simp only [sampleCalls, List.mem_cons, PickEvent.begins.injEq, reduceCtorEq, List.not_mem_nil,
      false_and, false_or, or_false] at hbegins
    exact hbegins.2.1
  exact ⟨s, tried, hrun, hcall, hhosts ▸ hperm⟩

/-- The host that did not answer goes last, though it was drawn first. -/
theorem demoted_exactly_sample : ∃ s : Picking Bool, run step (start ∅) sampleCalls = some s ∧
    s.calls true = some (.dials [sampleUp, sampleDown] 130) := by
  obtain ⟨s, tried, hrun, hcall, hlog, halone⟩ := run_sampleCalls
  obtain ⟨hosts, shuffled, late, hbegins, -, hlate⟩ := demoted_exactly hrun halone hcall
  have hshuffled : shuffled = [sampleDown, sampleUp] := by
    simp only [sampleCalls, List.mem_cons, PickEvent.begins.injEq, reduceCtorEq, List.not_mem_nil,
      false_and, false_or, or_false] at hbegins
    exact hbegins.2.2.1
  rw [hlog, hshuffled] at hlate
  have hlast : late = [sampleDown] := List.perm_singleton.mp hlate.perm
  have htried : tried = [sampleUp, sampleDown] := by
    rw [hlate.tried, hlast]
    rfl
  exact ⟨s, hrun, htried ▸ hcall⟩

end Picking

end Pick

end Wires
