import Wires.Framework.Ledger
import Wires.Framework.Run
import Wires.Proof.Propagation
import Wires.Proof.Signing

/-!
# No half edit goes unsaid

In a run in which no command writes `reached.json` over what another recorded
since it read the file, and none judges its publish while another has an answer
that it has not recorded yet (`Apart`), the file and the commands under way hold
every directory that took a publish (`Kept`). So none that took one is left out
of what is made of the next (`none_half_done`). Commands that are run one after
another are apart (`apart_of_run`); two at once can lose each other's record
(`half_done`).
-/

namespace Wires

/-! ## What the commands hold -/

section

variable [Crypto] {root me : NodeId} {ι : Type} {log ds : List (PublishDeed root ι)} {i : ι}
  {d : NodeId} {held : Held root}

/-- `d` answered this publish, holding exactly what was published. -/
def Delivers (log : List (PublishDeed root ι)) (i : ι) (held : Held root) (d : NodeId) : Prop :=
  .answered i d held (some (.published held.version held.signed.head.hash)) ∈ log

theorem Delivers.append (h : Delivers log i held d) : Delivers (log ++ ds) i held d :=
  List.mem_append_left ds h

/-- `d` took a publish from this admin. -/
def HasTaken (log : List (PublishDeed root ι)) (d : NodeId) : Prop := ∃ j held, Delivers log j held d

namespace Publishing

/-- It is of the policy it holds, to every directory that this lists, and asks no one twice. -/
structure Whole (me : NodeId) (p : Publishing root) : Prop where
  want : p.job.want = p.held.version
  wantHead : p.job.wantHead = p.held.signed.head.hash
  nodup : p.targets.Nodup
  other : me ∉ p.targets
  listed : ∀ d ∈ p.held.signed.head.head.directories, d ≠ me → d ∈ p.targets

variable {p : Publishing root} {round : Option Publish.State} {r : Publish.Round}

theorem whole_of (held : Held root) (earlier : List NodeId) (retry : Retry)
    (reached : SortedSet NodeId) : (Publishing.of held earlier me retry reached).Whole me where
  want := rfl
  wantHead := rfl
  nodup := Publish.nodup_targets _ _ _
  other h := (Publish.mem_targets.mp h).2 rfl
  listed _ hd hme := Publish.mem_targets.mpr ⟨.inl hd, hme⟩

/-- What each round so far accounts for. -/
def Accounts (p : Publishing root) (round : Option Publish.State) : Prop :=
  ∀ s, round = some s → Publish.Accounted p.job p.targets s

theorem mem_targets_of_asked (h : p.Accounts round) (hd : d ∈ p.asked round) : d ∈ p.targets := by
  cases round with
  | none => exact hd
  | some s =>
    have hmissed := (Publish.mem_again.mp hd).1
    refine (h s rfl).perm.mem_iff.mp (List.mem_append_right _ (List.mem_append_left _ hmissed))

theorem accounted_joined (hp : p.Whole me) (h : p.Accounts round) :
    Publish.Accounted p.job p.targets (p.joined r round) := by
  cases round with
  | none => exact Publish.accounted_start hp.nodup
  | some s => exact (h s rfl).retry hp.nodup

/-- What was tried once a round is over. -/
theorem mem_joined {o : Took} : (d, o) ∈ (p.joined r round).tries ↔
    (∃ s, round = some s ∧ (d, o) ∈ s.tries) ∨
      d ∈ p.asked round ∧ o = Publish.took p.job.want p.job.wantHead (r.answers d) := by
  have hround : ∀ targets : List NodeId, (d, o) ∈ r.tries p.job targets ↔
      d ∈ targets ∧ o = Publish.took p.job.want p.job.wantHead (r.answers d) := by
    intro targets
    rw [Publish.Round.tries, List.mem_map]
    constructor
    · rintro ⟨x, hx, heq⟩
      obtain ⟨rfl, rfl⟩ := Prod.mk.inj heq
      exact ⟨hx, rfl⟩
    · rintro ⟨hd, rfl⟩
      exact ⟨d, hd, rfl⟩
  cases round with
  | none => simpa [joined, Publish.start, asked] using hround p.targets
  | some s =>
    rw [joined, Publish.State.retry, List.mem_append, hround, asked]
    simp

end Publishing

namespace PropagateStage

/-- The command has `d`'s answer that it took the publish, and has not recorded it. -/
def Holds (d : NodeId) : PropagateStage root → Prop
  | .asking _ _ p round answers => (∃ s, round = some s ∧ (d, .delivered) ∈ s.tries) ∨
      d ∈ p.asked round ∧ answers d = some (some (.published p.job.want p.job.wantHead))
  | .published _ (.ok (_, _, report)) => d ∈ report.delivered
  | .judged _ _ report _ => d ∈ report.delivered
  | .noting _ _ report _ _ => d ∈ report.delivered
  | _ => False

/-- The command asks whom it should, what it counts as delivered was answered, and what it says of its
publish is what was made of that. -/
def Fair (me : NodeId) (log : List (PublishDeed root ι)) (i : ι) : PropagateStage root → Prop
  | .asking _ _ p round answers => p.Whole me ∧ p.Accounts round ∧
      (∀ s, round = some s → ∀ d, (d, .delivered) ∈ s.tries → Delivers log i p.held d) ∧
      ∀ d, answers d = some (some (.published p.job.want p.job.wantHead)) → Delivers log i p.held d
  | .published _ (.ok (held, _, report)) => (∀ d ∈ report.delivered, Delivers log i held d) ∧
      ∀ d ∈ held.signed.head.head.directories, d ≠ me →
        d ∈ report.delivered ∨ d ∈ report.newer.map Prod.fst ∨ d ∈ report.missed ∧ d ∉ report.dropped
  | .judged _ version report running => ∃ held,
      .judged i (some held) (.fromPublish running (.ok (version, report))) ∈ log
  | .noting _ version report running _ => ∃ held,
      .judged i (some held) (.fromPublish running (.ok (version, report))) ∈ log
  | .ended (.ok report) => ∃ edited held pushed, .judged i held pushed ∈ log ∧
      report = Report.fold edited pushed
  | _ => True

theorem Fair.append {stage : PropagateStage root} (h : stage.Fair me log i) :
    stage.Fair me (log ++ ds) i := by
  cases stage with
  | asking report version p round answers =>
    obtain ⟨hp, hround, htries, hanswers⟩ := h
    exact ⟨hp, hround, fun s hs d hd => Delivers.append (htries s hs d hd), fun d hd =>
      Delivers.append (hanswers d hd)⟩
  | published report result =>
    cases result with
    | error why => trivial
    | ok r =>
      obtain ⟨held, version, report⟩ := r
      exact ⟨fun d hd => Delivers.append (h.1 d hd), h.2⟩
  | judged report version published running => exact h.imp fun _ hmem => List.mem_append_left ds hmem
  | noting report version published running all =>
    exact h.imp fun _ hmem => List.mem_append_left ds hmem
  | ended result =>
    cases result with
    | error why => trivial
    | ok report =>
      obtain ⟨edited, held, pushed, hmem, hreport⟩ := h
      exact ⟨edited, held, pushed, List.mem_append_left ds hmem, hreport⟩
  | _ => trivial

end PropagateStage

/-- What was said of a publish is so: it failed, or every directory that its policy lists and that took
one before has taken it, or is named. -/
def Truthful (before : List (PublishDeed root ι)) : PublishDeed root ι → Prop
  | .judged _ none pushed => pushed.failure ≠ none
  | .judged i (some held) pushed => ∀ d ∈ held.signed.head.head.directories, HasTaken before d →
      Delivers before i held d ∨ pushed.failure ≠ none ∧ StandsIn (PublishReport.shown d) pushed.note
  | _ => True

/-- No command judges its publish while another has an unrecorded answer of a directory that missed it,
and none writes over what was recorded since it read. -/
def Propagate.Apart (s : Propagate root ι) : PropagateEvent root ι → Prop
  | .judges i => ∀ report held version published,
      s.stage i = .published report (.ok (held, version, published)) →
      ∀ j, j ≠ i → ∀ d ∈ published.missed, ¬(s.stage j).Holds d
  | .notes i => ∀ report version published running all,
      s.stage i = .noting report version published running all →
      ∀ d, s.reached.containsKey d = true → all.containsKey d = true ∨ d ∈ published.delivered
  | _ => True

namespace Propagate

variable [DecidableEq ι] {s t : Propagate root ι} {stage : PropagateStage root}

/-- Who took a publish is recorded, or held by a command that has not recorded it. -/
structure Kept (me : NodeId) (s : Propagate root ι) : Prop where
  other : ∀ i d held answer, .answered i d held answer ∈ s.log → d ≠ me
  fair : ∀ i, (s.stage i).Fair me s.log i
  kept : ∀ d, HasTaken s.log d → s.reached.containsKey d = true ∨ ∃ i, (s.stage i).Holds d
  told : ∀ before x after, s.log = before ++ x :: after → Truthful before x

omit [DecidableEq ι] in
theorem kept_start (policy : Option (Held root)) : Kept me (start policy : Propagate root ι) where
  other _ _ _ _ h := by cases h
  fair _ := trivial
  kept d h := by
    obtain ⟨j, held, h⟩ := h
    cases h
  told before x after h := by simp [start] at h

/-- A command goes on: what it has is its own, and what it had it still has, or has recorded. -/
theorem Kept.goes (h : Kept me s) (hfair : stage.Fair me s.log i)
    (hholds : ∀ d, (s.stage i).Holds d → stage.Holds d ∨ s.reached.containsKey d = true) :
    Kept me (s.goes i stage) where
  other := h.other
  fair j := by
    show (Function.update s.stage i stage j).Fair me s.log j
    by_cases hj : j = i
    · rw [hj, Function.update_self]
      exact hfair
    · rw [Function.update_of_ne hj]
      exact h.fair j
  kept d hd := by
    show _ ∨ ∃ j, (Function.update s.stage i stage j).Holds d
    rcases h.kept d hd with hreached | ⟨j, hj⟩
    · exact .inl hreached
    · by_cases hji : j = i
      · rw [hji] at hj
        rcases hholds d hj with hnow | hreached
        · exact .inr ⟨i, by rwa [Function.update_self]⟩
        · exact .inl hreached
      · exact .inr ⟨j, by rwa [Function.update_of_ne hji]⟩
  told := h.told

/-- A command that held nothing goes on. -/
theorem Kept.goes_of_not (h : Kept me s) (hfair : stage.Fair me s.log i)
    (hnone : ∀ d, ¬(s.stage i).Holds d) : Kept me (s.goes i stage) :=
  h.goes hfair fun d hd => absurd hd (hnone d)

omit [DecidableEq ι] in
/-- Something is said of a publish. -/
theorem Kept.does (h : Kept me s) {held : Option (Held root)} {pushed : Propagation}
    (htold : Truthful s.log (.judged i held pushed)) : Kept me (s.does (.judged i held pushed)) where
  other j d held' answer hmem := by
    rcases List.mem_append.mp hmem with hold | hnew
    · exact h.other j d held' answer hold
    · cases List.mem_singleton.mp hnew
  fair j := (h.fair j).append
  kept d hd := by
    obtain ⟨j, held', hmem⟩ := hd
    rcases List.mem_append.mp hmem with hold | hnew
    · exact h.kept d ⟨j, held', hold⟩
    · cases List.mem_singleton.mp hnew
  told := of_split_concat h.told htold

section

variable {report : Report} {version : StateVersion} {p : Publishing root}
  {round : Option Publish.State} {answers : NodeId → Option (Option Directory.Answer)} {millis : Nat}

omit [DecidableEq ι] in
theorem delivers_of_holds (hfair : (PropagateStage.asking report version p round answers).Fair me log i)
    (h : (PropagateStage.asking report version p round answers).Holds d) : Delivers log i p.held d := by
  obtain ⟨-, -, htries, hanswers⟩ := hfair
  rcases h with ⟨s, hs, hd⟩ | ⟨-, hd⟩
  · exact htries s hs d hd
  · exact hanswers d hd

/-- Once a round is over, what was delivered is what the command held. -/
theorem joined_delivered :
    (d, .delivered) ∈ (p.joined ⟨fun d => (answers d).join, millis⟩ round).tries ↔
      (PropagateStage.asking report version p round answers).Holds d := by
  rw [Publishing.mem_joined, @eq_comm Took, Publish.took_eq_delivered, Option.join_eq_some_iff]
  rfl

/-- Every directory that the policy lists is in the report of its publish. -/
theorem mem_report {state : Publish.State} (hp : p.Whole me)
    (h : Publish.Accounted p.job p.targets state)
    (hd : d ∈ p.held.signed.head.head.directories) (hme : d ≠ me) :
    d ∈ (p.report state).delivered ∨ d ∈ (p.report state).newer.map Prod.fst ∨
      d ∈ (p.report state).missed ∧ d ∉ (p.report state).dropped := by
  have hnamed := h.perm.mem_iff.mpr (hp.listed d hd hme)
  rw [Publish.named, List.mem_append, List.mem_append] at hnamed
  rcases hnamed with hdelivered | hmissed | hnewer
  · exact .inl hdelivered
  · refine .inr (.inr ⟨hmissed, fun hdropped => ?_⟩)
    obtain ⟨-, hnot⟩ := List.mem_filter.mp hdropped
    simp [hd] at hnot
  · exact .inr (.inl hnewer)

/-- A directory answers. -/
theorem Kept.answered {answer : Option Directory.Answer} (h : Kept me s)
    (hstage : s.stage i = .asking report version p round answers) (hd : d ∈ p.asked round)
    (hfirst : answers d = none) :
    Kept me ((s.does (.answered i d p.held answer)).goes i
      (.asking report version p round (Function.update answers d (some answer)))) := by
  have hfair := h.fair i
  rw [hstage] at hfair
  obtain ⟨hp, hround, htries, hanswers⟩ := hfair
  have hnew : ∀ x, Function.update answers d (some answer) x =
      some (some (.published p.job.want p.job.wantHead)) → x = d ∧
        answer = some (.published p.job.want p.job.wantHead) ∨
        answers x = some (some (.published p.job.want p.job.wantHead)) := by
    intro x hx
    rw [Function.update_apply] at hx
    split_ifs at hx with hxd
    · exact .inl ⟨hxd, Option.some.inj hx⟩
    · exact .inr hx
  refine ⟨fun j x held' a hmem => ?_, fun j => ?_, fun x hx => ?_, of_split_concat h.told trivial⟩
  · rcases List.mem_append.mp hmem with hold | hnow
    · exact h.other j x held' a hold
    · obtain ⟨-, rfl, -, -⟩ := PublishDeed.answered.inj (List.mem_singleton.mp hnow)
      intro hme
      exact hp.other (hme ▸ Publishing.mem_targets_of_asked hround hd)
  · show (Function.update s.stage i _ j).Fair me (s.log ++ [.answered i d p.held answer]) j
    by_cases hj : j = i
    · rw [hj, Function.update_self]
      refine ⟨hp, hround, fun state hs x hx => (htries state hs x hx).append, fun x hx => ?_⟩
      rcases hnew x hx with ⟨rfl, rfl⟩ | hold
      · rw [Delivers, ← hp.want, ← hp.wantHead]
        exact List.mem_append_right _ List.mem_cons_self
      · exact (hanswers x hold).append
    · rw [Function.update_of_ne hj]
      exact (h.fair j).append
  · show _ ∨ ∃ j, (Function.update s.stage i _ j).Holds x
    obtain ⟨j, held', hmem⟩ := hx
    rcases List.mem_append.mp hmem with hold | hnow
    · rcases h.kept x ⟨j, held', hold⟩ with hreached | ⟨k, hk⟩
      · exact .inl hreached
      · refine .inr ⟨k, ?_⟩
        by_cases hki : k = i
        · rw [hki, hstage] at hk
          rw [hki, Function.update_self]
          rcases hk with hbefore | ⟨hasked, hanswer⟩
          · exact .inl hbefore
          · have hne : x ≠ d := by
              rintro rfl
              rw [hfirst] at hanswer
              cases hanswer
            exact .inr ⟨hasked, by rwa [Function.update_of_ne hne]⟩
        · rwa [Function.update_of_ne hki]
    · obtain ⟨-, rfl, rfl, ha⟩ := PublishDeed.answered.inj (List.mem_singleton.mp hnow)
      refine .inr ⟨i, ?_⟩
      rw [Function.update_self]
      refine .inr ⟨hd, ?_⟩
      rw [Function.update_self, ← ha, hp.want, hp.wantHead]

/-- A round is over. -/
theorem Kept.joined (h : Kept me s) (hstage : s.stage i = .asking report version p round answers)
    {state : Publish.State} (hstate : state = p.joined ⟨fun d => (answers d).join, millis⟩ round) :
    Kept me (s.goes i (.published report (.ok (p.held, version, p.report state)))) ∧
      Kept me (s.goes i (.asking report version p (some state) fun _ => none)) := by
  have hfair := h.fair i
  rw [hstage] at hfair
  have haccounted : Publish.Accounted p.job p.targets state :=
    hstate ▸ Publishing.accounted_joined hfair.1 hfair.2.1
  have hheld : ∀ d, (d, .delivered) ∈ state.tries ↔
      (PropagateStage.asking report version p round answers).Holds d := fun d =>
    hstate ▸ joined_delivered
  constructor
  · refine h.goes ⟨fun d hd => ?_, fun d hd hme => mem_report hfair.1 haccounted hd hme⟩ fun d hd => ?_
    · exact delivers_of_holds hfair ((hheld d).mp ((haccounted.delivered d).mp hd))
    · rw [hstage] at hd
      exact .inl ((haccounted.delivered d).mpr ((hheld d).mpr hd))
  · refine h.goes ⟨hfair.1, fun s' hs => Option.some.inj hs ▸ haccounted, fun s' hs d hd => ?_,
      fun d hd => by cases hd⟩ fun d hd => ?_
    · rw [← Option.some.inj hs] at hd
      exact delivers_of_holds hfair ((hheld d).mp hd)
    · rw [hstage] at hd
      exact .inl (.inl ⟨state, rfl, (hheld d).mpr hd⟩)

/-- What is said of a publish is so, where all that took one before is on record. -/
theorem Kept.told_judged (h : Kept me s) {published : PublishReport}
    (hstage : s.stage i = .published report (.ok (held, version, published)))
    (hapart : s.Apart (.judges i)) : Truthful s.log (.judged i (some held)
      (Propagation.fromPublish (published.missedRunning s.reached) (.ok (version, published)))) := by
  intro d hd htaken
  obtain ⟨j, held', hmem⟩ := htaken
  have hfair := h.fair i
  rw [hstage] at hfair
  rcases hfair.2 d hd (h.other j d held' _ hmem) with hdelivered | hnewer | ⟨hmissed, hlisted⟩
  · exact .inl (hfair.1 d hdelivered)
  · exact .inr (Propagation.names_missed (.inl hnewer))
  · rcases h.kept d ⟨j, held', hmem⟩ with hreached | ⟨k, hk⟩
    · refine .inr (Propagation.names_missed (.inr ?_))
      rw [PublishReport.missedRunning, List.mem_filter]
      simpa [hmissed, hreached] using hlisted
    · by_cases hki : k = i
      · rw [hki, hstage] at hk
        exact .inl (hfair.1 d hk)
      · exact absurd hk (hapart report held version published hstage k hki d hmissed)

/-- The file is written. -/
theorem Kept.noted (h : Kept me s) {published : PublishReport} {running : List NodeId}
    {all : SortedSet NodeId} (hstage : s.stage i = .noting report version published running all)
    (hapart : s.Apart (.notes i)) :
    Kept me ({ s with reached := all.extend (published.delivered.map fun d => (d, ())) }.goes i
      (.ended (.ok (report.fold (.fromPublish running (.ok (version, published))))))) := by
  have hkept : Kept me { s with reached := all.extend (published.delivered.map fun d => (d, ())) } := by
    refine ⟨h.other, h.fair, fun d hd => ?_, h.told⟩
    rcases h.kept d hd with hreached | hheld
    · refine .inl (SortedMap.containsKey_extend.mpr ?_)
      exact (hapart report version published running all hstage d hreached).symm
    · exact .inr hheld
  have hfair := h.fair i
  rw [hstage] at hfair
  obtain ⟨held, hmem⟩ := hfair
  refine hkept.goes ⟨report, some held, _, hmem, rfl⟩ fun d hd =>
    .inr (SortedMap.containsKey_extend.mpr (.inl ?_))
  replace hd : (s.stage i).Holds d := hd
  rw [hstage] at hd
  exact hd

/-- Every step keeps it. -/
theorem Kept.step {e : PropagateEvent root ι} (h : Kept me s) (hapart : s.Apart e)
    (hstep : step me s e = some t) : Kept me t := by
  have hidle : ∀ {i stage}, s.stage i = stage → (∀ d, ¬stage.Holds d) → ∀ d, ¬(s.stage i).Holds d :=
    fun heq hnone d hd => hnone d (heq ▸ hd)
  cases e with
  | begins i retry why =>
    cases why with
    | some why =>
      rw [Propagate.step] at hstep
      split at hstep
      · rename_i hstage
        obtain rfl := Option.some.inj hstep
        exact h.goes_of_not trivial (hidle hstage fun _ => id)
      · cases hstep
    | none =>
      rw [Propagate.step] at hstep
      split at hstep
      · rename_i hstage
        obtain rfl := Option.some.inj hstep
        exact h.goes_of_not trivial (hidle hstage fun _ => id)
      · cases hstep
  | edits i outcome =>
    rw [Propagate.step] at hstep
    split at hstep
    · rename_i retry earlier hstage
      split at hstep
      · obtain rfl := Option.some.inj hstep
        exact h.goes_of_not trivial (hidle hstage fun _ => id)
      · rename_i report policy
        obtain rfl := Option.some.inj hstep
        have hkept : Kept me { s with policy } := ⟨h.other, h.fair, h.kept, h.told⟩
        exact hkept.goes_of_not trivial (hidle hstage fun _ => id)
    · cases hstep
  | binds i why =>
    rw [Propagate.step] at hstep
    split at hstep
    · rename_i retry earlier report hstage
      split at hstep
      · obtain rfl := Option.some.inj hstep
        exact h.goes_of_not trivial (hidle hstage fun _ => id)
      · rename_i held _
        split_ifs at hstep with hnone
        · obtain rfl := Option.some.inj hstep
          refine h.goes_of_not ⟨fun d hd => (by cases hd), fun d hd hme => ?_⟩ (hidle hstage fun _ => id)
          have hmem : d ∈ Publish.targets held.signed.head.head.directories earlier me :=
            Publish.mem_targets.mpr ⟨.inl hd, hme⟩
          rw [hnone] at hmem
          cases hmem
        · obtain rfl := Option.some.inj hstep
          exact h.goes_of_not trivial (hidle hstage fun _ => id)
    · cases hstep
  | asks i why =>
    rw [Propagate.step] at hstep
    split at hstep
    · rename_i retry earlier report version hstage
      split at hstep
      · obtain rfl := Option.some.inj hstep
        exact h.goes_of_not trivial (hidle hstage fun _ => id)
      · rename_i held _
        obtain rfl := Option.some.inj hstep
        exact h.goes_of_not ⟨Publishing.whole_of held earlier retry s.reached,
          fun _ hs => (by cases hs), fun _ hs => (by cases hs), fun _ hd => (by cases hd)⟩
          (hidle hstage fun _ => id)
    · cases hstep
  | answers i d answer =>
    rw [Propagate.step] at hstep
    split at hstep
    · rename_i hstage
      split_ifs at hstep with hasked
      obtain rfl := Option.some.inj hstep
      exact h.answered hstage (List.contains_iff_mem.mp hasked.1) hasked.2
    · cases hstep
  | joins i millis =>
    rw [Propagate.step] at hstep
    split at hstep
    · rename_i report version p round answers hstage
      obtain ⟨hover, hmore⟩ := h.joined hstage
        (rfl : p.joined ⟨fun d => (answers d).join, millis⟩ round = _)
      rw [Option.ite_none_right_eq_some] at hstep
      obtain ⟨-, hstep⟩ := hstep
      dsimp only at hstep
      split_ifs at hstep
      · obtain rfl := Option.some.inj hstep
        exact hover
      · obtain rfl := Option.some.inj hstep
        exact hmore
    · cases hstep
  | judges i =>
    rw [Propagate.step] at hstep
    split at hstep
    · rename_i report why hstage
      obtain rfl := Option.some.inj hstep
      have htold : Truthful s.log (.judged i none (Propagation.fromPublish [] (.error why))) :=
        Option.some_ne_none _
      exact (h.does htold).goes_of_not
        ⟨report, none, _, List.mem_append_right s.log List.mem_cons_self, rfl⟩ (hidle hstage fun _ => id)
    · rename_i report held version published hstage
      obtain rfl := Option.some.inj hstep
      refine (h.does (h.told_judged hstage hapart)).goes
        ⟨held, List.mem_append_right s.log List.mem_cons_self⟩ fun d hd => .inl ?_
      replace hd : (s.stage i).Holds d := hd
      rw [hstage] at hd
      exact hd
    · cases hstep
  | recalls i =>
    rw [Propagate.step] at hstep
    split at hstep
    · rename_i report version published running hstage
      have hfair := h.fair i
      rw [hstage] at hfair
      obtain ⟨held, hmem⟩ := hfair
      split_ifs at hstep with hall
      · obtain rfl := Option.some.inj hstep
        refine h.goes ⟨report, some held, _, hmem, rfl⟩ fun d hd => .inr ?_
        rw [hstage] at hd
        exact List.all_eq_true.mp hall d hd
      · obtain rfl := Option.some.inj hstep
        refine h.goes ⟨held, hmem⟩ fun d hd => .inl ?_
        rw [hstage] at hd
        exact hd
    · cases hstep
  | notes i =>
    rw [Propagate.step] at hstep
    split at hstep
    · rename_i hstage
      obtain rfl := Option.some.inj hstep
      exact h.noted hstage hapart
    · cases hstep

end

theorem kept_of_run {policy : Option (Held root)} {es : List (PropagateEvent root ι)}
    (hrun : run (step me) (start policy) es = some s)
    (hapart : ∀ es₁ e es₂ u, es = es₁ ++ e :: es₂ → run (step me) (start policy) es₁ = some u →
      u.Apart e) : Kept me s :=
  run_invariant_of (fun _ _ _ h hapart hstep => h.step hapart hstep) (kept_start policy) hapart hrun

/-- What a command's report says of its publish: that it failed, or that it failed and which of the
directories that its policy lists, and that took a publish before, did not answer that they hold this. -/
def Tells (before : List (PublishDeed root ι)) (i : ι) (report : Report) : Option (Held root) → Prop
  | none => report.failure ≠ none
  | some held => ∀ d ∈ held.signed.head.head.directories, HasTaken before d →
      Delivers before i held d ∨
        report.failure ≠ none ∧ ∃ note ∈ report.notes, StandsIn (PublishReport.shown d) note

/-- In every run in which no command judges its publish while another has an unrecorded answer of a
directory that missed it, and none writes over what was recorded since it read, a command that ends
was told of its publish: it ends with no failure only if every directory that the published policy lists
and that took one before answered that it holds this one; else it fails, and names the directory. -/
theorem none_half_done (me : NodeId) (policy : Option (Held root)) (es : List (PropagateEvent root ι))
    (s : Propagate root ι) (hrun : run (step me) (start policy) es = some s)
    (hapart : ∀ es₁ e es₂ u, es = es₁ ++ e :: es₂ → run (step me) (start policy) es₁ = some u →
      u.Apart e) (i : ι) (report : Report) (hended : s.stage i = .ended (.ok report)) :
    ∃ held pushed before after, s.log = before ++ .judged i held pushed :: after ∧
      Tells before i report held := by
  have h := kept_of_run hrun hapart
  have hfair := h.fair i
  rw [hended] at hfair
  obtain ⟨edited, held, pushed, hmem, rfl⟩ := hfair
  obtain ⟨before, after, hlog⟩ := List.append_of_mem hmem
  have htold := h.told before _ after hlog
  refine ⟨held, pushed, before, after, hlog, ?_⟩
  cases held with
  | none => exact htold
  | some held =>
    intro d hd htaken
    rcases htold d hd htaken with hdelivered | ⟨hfailed, hnamed⟩
    · exact .inl hdelivered
    · have hnote : pushed.note ∈ (edited.fold pushed).notes :=
        List.mem_append_right edited.notes List.mem_cons_self
      exact .inr ⟨hfailed, pushed.note, hnote, hnamed⟩

/-! ### Commands in turn -/

/-- The command that takes the step. -/
def of : PropagateEvent root ι → ι
  | .begins i _ _ => i
  | .edits i _ => i
  | .binds i _ => i
  | .asks i _ => i
  | .answers i _ _ => i
  | .joins i _ => i
  | .judges i => i
  | .recalls i => i
  | .notes i => i

/-- No other command is under way. -/
def InTurn (s : Propagate root ι) (e : PropagateEvent root ι) : Prop :=
  ∀ j, j ≠ of e → s.stage j = .idle ∨ ∃ result, s.stage j = .ended result

/-- What a command is to add to is what the file holds. -/
def Reread (s : Propagate root ι) : Prop :=
  ∀ i report version published running all,
    s.stage i = .noting report version published running all → all = s.reached

omit [DecidableEq ι] in
theorem apart_of_inTurn {e : PropagateEvent root ι} (h : Reread s) (hturn : s.InTurn e) :
    s.Apart e := by
  cases e with
  | judges i =>
    intro report held version published hstage j hj d hd hholds
    rcases hturn j hj with hidle | ⟨result, hended⟩
    · rw [hidle] at hholds
      exact hholds
    · rw [hended] at hholds
      exact hholds
  | notes i =>
    intro report version published running all hstage d hd
    rw [h i report version published running all hstage]
    exact .inl hd
  | _ => trivial

/-- A step is one of its command, which reads the file before it is to write it. -/
theorem step_goes {e : PropagateEvent root ι} (hstep : step me s e = some t) :
    ∃ next, t.stage = Function.update s.stage (of e) next ∧
      ∀ report version published running all,
        next = .noting report version published running all → all = s.reached ∧ t.reached = s.reached := by
  cases e with
  | begins i retry why =>
    cases why with
    | some why =>
      rw [Propagate.step] at hstep
      split at hstep
      · obtain rfl := Option.some.inj hstep
        exact ⟨_, rfl, by simp⟩
      · cases hstep
    | none =>
      rw [Propagate.step] at hstep
      split at hstep
      · obtain rfl := Option.some.inj hstep
        exact ⟨_, rfl, by simp⟩
      · cases hstep
  | edits i outcome =>
    rw [Propagate.step] at hstep
    split at hstep
    · split at hstep
      · obtain rfl := Option.some.inj hstep
        exact ⟨_, rfl, by simp⟩
      · obtain rfl := Option.some.inj hstep
        exact ⟨_, rfl, by simp⟩
    · cases hstep
  | binds i why =>
    rw [Propagate.step] at hstep
    split at hstep
    · split at hstep
      · obtain rfl := Option.some.inj hstep
        exact ⟨_, rfl, by simp⟩
      · split_ifs at hstep
        · obtain rfl := Option.some.inj hstep
          exact ⟨_, rfl, by simp⟩
        · obtain rfl := Option.some.inj hstep
          exact ⟨_, rfl, by simp⟩
    · cases hstep
  | asks i why =>
    rw [Propagate.step] at hstep
    split at hstep
    · split at hstep
      · obtain rfl := Option.some.inj hstep
        exact ⟨_, rfl, by simp⟩
      · obtain rfl := Option.some.inj hstep
        exact ⟨_, rfl, by simp⟩
    · cases hstep
  | answers i d answer =>
    rw [Propagate.step] at hstep
    split at hstep
    · split_ifs at hstep
      obtain rfl := Option.some.inj hstep
      exact ⟨_, rfl, by simp⟩
    · cases hstep
  | joins i millis =>
    rw [Propagate.step] at hstep
    split at hstep
    · rw [Option.ite_none_right_eq_some] at hstep
      obtain ⟨-, hstep⟩ := hstep
      dsimp only at hstep
      split_ifs at hstep
      · obtain rfl := Option.some.inj hstep
        exact ⟨_, rfl, by simp⟩
      · obtain rfl := Option.some.inj hstep
        exact ⟨_, rfl, by simp⟩
    · cases hstep
  | judges i =>
    rw [Propagate.step] at hstep
    split at hstep
    · obtain rfl := Option.some.inj hstep
      exact ⟨_, rfl, by simp⟩
    · obtain rfl := Option.some.inj hstep
      exact ⟨_, rfl, by simp⟩
    · cases hstep
  | recalls i =>
    rw [Propagate.step] at hstep
    split at hstep
    · split_ifs at hstep
      · obtain rfl := Option.some.inj hstep
        exact ⟨_, rfl, by simp⟩
      · obtain rfl := Option.some.inj hstep
        refine ⟨_, rfl, fun _ _ _ _ all heq => ?_⟩
        obtain ⟨-, -, -, -, rfl⟩ := PropagateStage.noting.inj heq
        exact ⟨rfl, rfl⟩
    · cases hstep
  | notes i =>
    rw [Propagate.step] at hstep
    split at hstep
    · obtain rfl := Option.some.inj hstep
      exact ⟨_, rfl, by simp⟩
    · cases hstep

theorem reread_of_step {e : PropagateEvent root ι} (hturn : s.InTurn e)
    (hstep : step me s e = some t) : Reread t := by
  obtain ⟨next, hstage, hnext⟩ := step_goes hstep
  intro j report version published running all hj
  rw [hstage, Function.update_apply] at hj
  split_ifs at hj with hje
  · obtain ⟨hall, hsame⟩ := hnext report version published running all hj
    rw [hall, hsame]
  · rcases hturn j hje with hidle | ⟨result, hended⟩
    · rw [hidle] at hj
      cases hj
    · rw [hended] at hj
      cases hj

/-- The events of one command, with no other under way. -/
theorem along_inTurn {i : ι} {es : List (PropagateEvent root ι)} (hof : ∀ e ∈ es, of e = i)
    (hidle : ∀ j, j ≠ i → s.stage j = .idle ∨ ∃ result, s.stage j = .ended result) :
    Along (step me) InTurn s es := by
  induction es generalizing s with
  | nil => trivial
  | cons e es ih =>
    have he := hof e List.mem_cons_self
    refine ⟨fun j hj => hidle j (he ▸ hj), fun t hstep => ?_⟩
    obtain ⟨next, hstage, -⟩ := step_goes hstep
    refine ih (fun e' he' => hof e' (List.mem_cons_of_mem _ he')) fun j hj => ?_
    rw [hstage, he, Function.update_of_ne hj]
    exact hidle j hj

/-- Commands that are run one after another are apart. -/
theorem apart_of_run {policy : Option (Held root)} {es : List (PropagateEvent root ι)}
    (hturn : ∀ es₁ e es₂ u, es = es₁ ++ e :: es₂ → run (step me) (start policy) es₁ = some u →
      u.InTurn e) (es₁ : List (PropagateEvent root ι)) (e : PropagateEvent root ι)
    (es₂ : List (PropagateEvent root ι)) (u : Propagate root ι) (heq : es = es₁ ++ e :: es₂)
    (hrun : run (step me) (start policy) es₁ = some u) : u.Apart e := by
  have hreread : Reread u := by
    refine run_invariant_of (fun _ _ _ _ hturn hstep => reread_of_step hturn hstep) ?_
      (fun fs e' fs' v hfs hv => ?_) hrun
    · intro i report version published running all hi
      cases hi
    · exact hturn fs e' (fs' ++ e :: es₂) v (by rw [heq, hfs]; simp) hv
  exact apart_of_inTurn hreread (hturn es₁ e es₂ u heq hrun)

end Propagate

end

section

variable [Crypto] {root me : NodeId} {ι : Type} [DecidableEq ι] {s t : Propagate root ι} {i : ι}
  {d : NodeId} {held : Held root} {stage : PropagateStage root}

namespace Propagate

/-! ### What can happen -/

section

variable {retry : Retry} {earlier running : List NodeId} {report : Report} {version : StateVersion}
  {p : Publishing root} {round : Option Publish.State}
  {answers : NodeId → Option (Option Directory.Answer)} {published : PublishReport}

@[simp] theorem goes_policy : (s.goes i stage).policy = s.policy := rfl

@[simp] theorem goes_reached : (s.goes i stage).reached = s.reached := rfl

@[simp] theorem goes_log : (s.goes i stage).log = s.log := rfl

@[simp] theorem goes_stage : (s.goes i stage).stage = Function.update s.stage i stage := rfl

theorem step_begins (hstage : s.stage i = .idle) :
    step me s (.begins i retry none) = some (s.goes i (.edits retry (directories s.policy))) := by
  rw [step, hstage]

theorem step_edits {policy : Option (Held root)} (hstage : s.stage i = .edits retry earlier) :
    step me s (.edits i (.ok (report, policy))) =
      some ({ s with policy }.goes i (.stored retry earlier report)) := by
  rw [step, hstage]

theorem step_binds (hstage : s.stage i = .stored retry earlier report) (hpolicy : s.policy = some held)
    (hlisted : Publish.targets held.signed.head.head.directories earlier me ≠ []) :
    step me s (.binds i none) = some (s.goes i (.bound retry earlier report held.version)) := by
  simp [step, hstage, read, hpolicy, hlisted]

theorem step_asks (hstage : s.stage i = .bound retry earlier report version)
    (hpolicy : s.policy = some held) : step me s (.asks i none) =
      some (s.goes i (.asking report version (.of held earlier me retry s.reached) none fun _ => none)) := by
  simp [step, hstage, read, hpolicy]

theorem step_answers {answer : Option Directory.Answer}
    (hstage : s.stage i = .asking report version p round answers) (hd : d ∈ p.asked round)
    (hfirst : answers d = none) : step me s (.answers i d answer) =
      some ((s.does (.answered i d p.held answer)).goes i
        (.asking report version p round (Function.update answers d (some answer)))) := by
  simp [step, hstage, hd, hfirst]

theorem step_joins {millis : Nat} (hstage : s.stage i = .asking report version p round answers)
    (hall : ∀ d ∈ p.asked round, (answers d).isSome = true)
    (hover : (p.joined ⟨fun d => (answers d).join, millis⟩ round).again p.job = [] ∨
      p.job.budget - (p.joined ⟨fun d => (answers d).join, millis⟩ round).elapsed ≤ RETRY_PAUSE) :
    step me s (.joins i millis) = some (s.goes i (.published report (.ok (p.held, version,
      p.report (p.joined ⟨fun d => (answers d).join, millis⟩ round))))) := by
  rw [step, hstage]
  dsimp only
  rw [if_pos hall, if_pos hover]

theorem step_judges (hstage : s.stage i = .published report (.ok (held, version, published))) :
    step me s (.judges i) = some ((s.does (.judged i (some held)
      (.fromPublish (published.missedRunning s.reached) (.ok (version, published))))).goes i
        (.judged report version published (published.missedRunning s.reached))) := by
  rw [step, hstage]

theorem step_recalls (hstage : s.stage i = .judged report version published running)
    (hnew : published.delivered.all s.reached.containsKey = false) : step me s (.recalls i) =
      some (s.goes i (.noting report version published running s.reached)) := by
  simp [step, hstage, hnew]

theorem step_recalls_known (hstage : s.stage i = .judged report version published running)
    (hknown : published.delivered.all s.reached.containsKey = true) : step me s (.recalls i) =
      some (s.goes i (.ended (.ok (report.fold (.fromPublish running (.ok (version, published))))))) := by
  simp [step, hstage, hknown]

theorem step_notes {all : SortedSet NodeId}
    (hstage : s.stage i = .noting report version published running all) : step me s (.notes i) =
      some ({ s with reached := all.extend (published.delivered.map fun d => (d, ())) }.goes i
        (.ended (.ok (report.fold (.fromPublish running (.ok (version, published))))))) := by
  rw [step, hstage]

end

end Propagate

end

/-! ## A record that is lost -/

section Sample

attribute [local instance] Crypto.plain

/-- A policy with two directories. -/
def twoDirectories : Policy :=
  { samplePolicy 1 [sampleNode 3] with directories := [sampleNode 1, sampleNode 2] }

theorem validate_twoDirectories : twoDirectories.validate = .ok () := by decide

def twoHeld : Held (nodeId sampleRoot) :=
  ⟨twoDirectories.signed sampleRoot none, twoDirectories,
    Policy.verify_signed_none rfl validate_twoDirectories, Policy.toPolicy_signed rfl⟩

/-- The admin's own node. -/
def adminNode : NodeId := sampleNode 4

def bareReport : Report := ⟨"", [], none, none⟩

/-- What the directories answer when only `x` takes the publish. -/
def onlyTakes (x d : NodeId) : Option Directory.Answer :=
  if d = x then some (.published twoHeld.version twoHeld.signed.head.hash) else none

/-- One command, until its publish is judged; only `x` takes it, in a round that takes so long. -/
def commandEvents {ι : Type} (i : ι) (x : NodeId) (millis : Nat) :
    List (PropagateEvent (nodeId sampleRoot) ι) :=
  [.begins i .reached none, .edits i (.ok (bareReport, some twoHeld)), .binds i none, .asks i none,
    .answers i (sampleNode 1) (onlyTakes x (sampleNode 1)),
    .answers i (sampleNode 2) (onlyTakes x (sampleNode 2)), .joins i millis, .judges i]

/-- The report of such a publish. -/
def onlyReport (x y : NodeId) : PublishReport := ⟨[x], [y], [], [], []⟩

theorem targets_sample : Publish.targets twoHeld.signed.head.head.directories
    twoHeld.signed.head.head.directories adminNode = [sampleNode 1, sampleNode 2] := by decide

theorem report_sample {x y : NodeId} {reached : SortedSet NodeId} {r : Publish.Round}
    (hxy : x = sampleNode 1 ∧ y = sampleNode 2 ∨ x = sampleNode 2 ∧ y = sampleNode 1)
    (hx : r.answers x = some (.published twoHeld.version twoHeld.signed.head.hash))
    (hy : r.answers y = none) {p : Publishing (nodeId sampleRoot)}
    (hp : p = .of twoHeld twoHeld.signed.head.head.directories adminNode .reached reached) :
    (p.joined r none).report = onlyReport x y ∧ p.report (p.joined r none) = onlyReport x y := by
  have htargets : p.targets = [sampleNode 1, sampleNode 2] := by
    rw [hp]
    exact targets_sample
  have hdelivered : Publish.took p.job.want p.job.wantHead (r.answers x) = .delivered := by
    rw [hx, hp]
    exact Publish.took_eq_delivered.mpr rfl
  have hmissed : Publish.took p.job.want p.job.wantHead (r.answers y) = .missed := by
    rw [hy]
    rfl
  have hreport : (p.joined r none).report = onlyReport x y := by
    rw [Publishing.joined, Publish.start, Publish.Round.tries, htargets]
    rcases hxy with ⟨rfl, rfl⟩ | ⟨rfl, rfl⟩
    · simp only [List.map_cons, List.map_nil, hdelivered, hmissed]
      rfl
    · simp only [List.map_cons, List.map_nil, hdelivered, hmissed]
      rfl
  refine ⟨hreport, ?_⟩
  rw [Publishing.report, hreport, htargets, hp]
  rfl

/-- What one command comes to, if it does not try the directory that misses it again. -/
def commandLog {ι : Type} (i : ι) (x y : NodeId) (running : List NodeId) :
    List (PublishDeed (nodeId sampleRoot) ι) :=
  [.answered i (sampleNode 1) twoHeld (onlyTakes x (sampleNode 1)),
    .answered i (sampleNode 2) twoHeld (onlyTakes x (sampleNode 2)),
    .judged i (some twoHeld) (.fromPublish running (.ok (twoHeld.version, onlyReport x y)))]

/-- A directory that was not reached before is not tried again. -/
theorem again_sample {x y : NodeId} {reached : SortedSet NodeId} {state : Publish.State}
    (hy : reached.containsKey y = false) (hreport : state.report = onlyReport x y) :
    state.again (Publishing.of twoHeld twoHeld.signed.head.head.directories adminNode .reached reached).job =
      [] := by
  rw [List.eq_nil_iff_forall_not_mem]
  intro d hd
  obtain ⟨hmissed, hpatient, -⟩ := Publish.mem_again.mp hd
  rw [hreport] at hmissed
  obtain rfl := List.mem_singleton.mp hmissed
  rw [SortedMap.containsKey, Publishing.of, SortedMap.get?_filterMap] at hpatient
  have hnone : reached.get? d = none := by
    rw [SortedMap.containsKey] at hy
    exact Option.isNone_iff_eq_none.mp (Option.isSome_eq_false_iff.mp hy)
  rw [hnone] at hpatient
  cases hpatient

section

variable {ι : Type} [DecidableEq ι] {reached : SortedSet NodeId}
  {stage : ι → PropagateStage (nodeId sampleRoot)} {log : List (PublishDeed (nodeId sampleRoot) ι)}
  {i : ι} {now next : PropagateStage (nodeId sampleRoot)} {d : PublishDeed (nodeId sampleRoot) ι}

/-- The keystore, as a command has come to a stage. -/
def commandState (reached : SortedSet NodeId) (stage : ι → PropagateStage (nodeId sampleRoot))
    (log : List (PublishDeed (nodeId sampleRoot) ι)) (i : ι)
    (now : PropagateStage (nodeId sampleRoot)) : Propagate (nodeId sampleRoot) ι :=
  ⟨some twoHeld, reached, Function.update stage i now, log⟩

theorem stage_commandState : (commandState reached stage log i now).stage i = now := by
  simp [commandState]

theorem does_commandState : (commandState reached stage log i now).does d =
    commandState reached stage (log ++ [d]) i now := rfl

theorem goes_commandState :
    (commandState reached stage log i now).goes i next = commandState reached stage log i next := by
  rw [commandState, Propagate.goes, Function.update_idem]
  rfl

theorem run_command {x y : NodeId}
    (hxy : x = sampleNode 1 ∧ y = sampleNode 2 ∨ x = sampleNode 2 ∧ y = sampleNode 1)
    (hidle : stage i = .idle) {millis : Nat}
    (hquiet : reached.containsKey y = false ∨ millis = PUBLISH_BUDGET) {running : List NodeId}
    (hrunning : (onlyReport x y).missedRunning reached = running) :
    run (Propagate.step adminNode) ⟨some twoHeld, reached, stage, log⟩ (commandEvents i x millis) =
      some (commandState reached stage (log ++ commandLog i x y running) i
        (.judged bareReport twoHeld.version (onlyReport x y) running)) := by
  have hne : sampleNode 2 ≠ sampleNode 1 := by decide
  have hx : onlyTakes x x = some (.published twoHeld.version twoHeld.signed.head.hash) := if_pos rfl
  have hnone : onlyTakes x y = none := by
    rcases hxy with ⟨rfl, rfl⟩ | ⟨rfl, rfl⟩
    · rfl
    · rfl
  have hlisted : Publish.targets twoHeld.signed.head.head.directories
      twoHeld.signed.head.head.directories adminNode ≠ [] := by
    rw [targets_sample]
    exact List.cons_ne_nil _ _
  obtain ⟨p, hp⟩ : ∃ p, p = Publishing.of twoHeld twoHeld.signed.head.head.directories adminNode .reached
    reached := ⟨_, rfl⟩
  have hasked : p.asked none = [sampleNode 1, sampleNode 2] := by
    rw [hp]
    exact targets_sample
  obtain ⟨answers, hanswers⟩ : ∃ answers : NodeId → Option (Option Directory.Answer), answers =
    Function.update (Function.update (fun _ => none) (sampleNode 1) (some (onlyTakes x (sampleNode 1))))
      (sampleNode 2) (some (onlyTakes x (sampleNode 2))) := ⟨_, rfl⟩
  have hgiven : ∀ d ∈ [sampleNode 1, sampleNode 2], answers d = some (onlyTakes x d) := by
    intro d hd
    simp only [List.mem_cons, List.not_mem_nil, or_false] at hd
    rcases hd with rfl | rfl
    · rw [hanswers, Function.update_of_ne hne.symm, Function.update_self]
    · rw [hanswers, Function.update_self]
  have htakes : (answers x).join = some (.published twoHeld.version twoHeld.signed.head.hash) := by
    rw [hgiven x (by rcases hxy with ⟨rfl, -⟩ | ⟨rfl, -⟩ <;> simp), hx]
    rfl
  have hmisses : (answers y).join = none := by
    rw [hgiven y (by rcases hxy with ⟨-, rfl⟩ | ⟨-, rfl⟩ <;> simp), hnone]
    rfl
  obtain ⟨hreport, hwhole⟩ := @report_sample x y reached ⟨fun d => (answers d).join, millis⟩ hxy htakes
    hmisses
    p hp
  have hall : ∀ d ∈ p.asked none, (answers d).isSome = true := by
    intro d hd
    rw [hasked] at hd
    rw [hgiven d hd]
    rfl
  have hover : (p.joined ⟨fun d => (answers d).join, millis⟩ none).again p.job = [] ∨
      p.job.budget - (p.joined ⟨fun d => (answers d).join, millis⟩ none).elapsed ≤ RETRY_PAUSE := by
    rcases hquiet with hy | rfl
    · have hagain := again_sample hy hreport
      rw [← hp] at hagain
      exact .inl hagain
    · right
      rw [hp]
      show PUBLISH_BUDGET - PUBLISH_BUDGET ≤ RETRY_PAUSE
      exact (Nat.sub_self _).trans_le (Nat.zero_le _)
  have hheld : p.held = twoHeld := by
    rw [hp]
    rfl
  have hbegins : Propagate.step adminNode ⟨some twoHeld, reached, stage, log⟩ (.begins i .reached none) =
      some (commandState reached stage log i (.edits .reached twoHeld.signed.head.head.directories)) :=
    Propagate.step_begins hidle
  rw [commandEvents, run_cons]
  refine ⟨_, hbegins, ?_⟩
  rw [run_cons]
  refine ⟨_, Propagate.step_edits stage_commandState, ?_⟩
  have hedited : ({ commandState reached stage log i
      (.edits .reached twoHeld.signed.head.head.directories) with policy := some twoHeld }.goes i
        (.stored .reached twoHeld.signed.head.head.directories bareReport)) =
      commandState reached stage log i
        (.stored .reached twoHeld.signed.head.head.directories bareReport) := goes_commandState
  rw [hedited, run_cons]
  refine ⟨_, Propagate.step_binds stage_commandState rfl hlisted, ?_⟩
  rw [goes_commandState, run_cons]
  refine ⟨_, Propagate.step_asks stage_commandState rfl, ?_⟩
  rw [goes_commandState, run_cons, show (commandState reached stage log i (.bound .reached
    twoHeld.signed.head.head.directories bareReport twoHeld.version)).reached = reached from rfl, ← hp]
  refine ⟨_, Propagate.step_answers stage_commandState (by rw [hasked]; simp) rfl, ?_⟩
  rw [does_commandState, goes_commandState, run_cons]
  refine ⟨_, Propagate.step_answers stage_commandState (by rw [hasked]; simp)
    (Function.update_of_ne hne _ _), ?_⟩
  rw [does_commandState, goes_commandState, ← hanswers, run_cons]
  refine ⟨_, Propagate.step_joins stage_commandState hall hover, ?_⟩
  rw [goes_commandState, hwhole, hheld, run_cons]
  refine ⟨_, Propagate.step_judges stage_commandState, ?_⟩
  rw [does_commandState, goes_commandState, run_nil, show (commandState reached stage _ i
    (.published bareReport (.ok (twoHeld, twoHeld.version, onlyReport x y)))).reached = reached from rfl,
    hrunning, commandState, commandState, commandLog]
  simp

end

/-! ### Two commands, and three -/

theorem directories_twoHeld : twoHeld.signed.head.head.directories = [sampleNode 1, sampleNode 2] := rfl

/-- What such a command says in the end. -/
def onlyFolded (x y : NodeId) (running : List NodeId) : Report :=
  bareReport.fold (.fromPublish running (.ok (twoHeld.version, onlyReport x y)))

theorem missedRunning_of_new {x y : NodeId} {reached : SortedSet NodeId}
    (hy : reached.containsKey y = false) : (onlyReport x y).missedRunning reached = [] := by
  simp [PublishReport.missedRunning, onlyReport, hy]

section

variable {ι : Type} [DecidableEq ι] {reached all : SortedSet NodeId}
  {stage : ι → PropagateStage (nodeId sampleRoot)} {log : List (PublishDeed (nodeId sampleRoot) ι)}
  {i : ι} {x y : NodeId} {running : List NodeId}

theorem recalls_commandState (hnew : reached.containsKey x = false) : Propagate.step adminNode
    (commandState reached stage log i (.judged bareReport twoHeld.version (onlyReport x y) running))
    (.recalls i) = some (commandState reached stage log i
      (.noting bareReport twoHeld.version (onlyReport x y) running reached)) := by
  rw [Propagate.step_recalls stage_commandState (by simp [onlyReport, commandState, hnew]),
    goes_commandState]
  rfl

theorem recalls_commandState_known (hknown : reached.containsKey x = true) : Propagate.step adminNode
    (commandState reached stage log i (.judged bareReport twoHeld.version (onlyReport x y) running))
    (.recalls i) = some (commandState reached stage log i (.ended (.ok (onlyFolded x y running)))) := by
  rw [Propagate.step_recalls_known stage_commandState (by simp [onlyReport, commandState, hknown]),
    goes_commandState]
  rfl

theorem notes_commandState : Propagate.step adminNode
    (commandState reached stage log i (.noting bareReport twoHeld.version (onlyReport x y) running all))
    (.notes i) = some (commandState (all.extend [(x, ())]) stage log i
      (.ended (.ok (onlyFolded x y running)))) := by
  rw [Propagate.step_notes stage_commandState]
  exact congrArg some (goes_commandState)

end

/-- Two commands in turn: the directory that takes the first misses the second. -/
def turnEvents : List (PropagateEvent (nodeId sampleRoot) Bool) :=
  (commandEvents false (sampleNode 1) 0 ++ [.recalls false, .notes false]) ++
    (commandEvents true (sampleNode 2) PUBLISH_BUDGET ++ [.recalls true, .notes true])

theorem none_half_done_sample : ∃ (s : Propagate (nodeId sampleRoot) Bool) (report : Report),
    run (Propagate.step adminNode) (Propagate.start (some twoHeld)) turnEvents = some s ∧
    s.stage true = .ended (.ok report) ∧ report.failure ≠ none ∧
    ∃ held pushed before after, s.log = before ++ .judged true held pushed :: after ∧
      Propagate.Tells before true report held := by
  have hrunning : (onlyReport (sampleNode 2) (sampleNode 1)).missedRunning
      ((∅ : SortedSet NodeId).extend [(sampleNode 1, ())]) = [sampleNode 1] := by decide
  have hfirst := run_append.mpr ⟨_, @run_command Bool _ ∅ (fun _ => .idle) [] false (sampleNode 1)
    (sampleNode 2) (.inl ⟨rfl, rfl⟩) rfl 0 (.inl rfl) _ (missedRunning_of_new rfl),
    run_cons.mpr ⟨_, recalls_commandState rfl, run_cons.mpr ⟨_, notes_commandState, run_nil.mpr rfl⟩⟩⟩
  have hsecond := run_append.mpr ⟨_, @run_command Bool _ ((∅ : SortedSet NodeId).extend [(sampleNode 1, ())])
    (Function.update (fun _ => .idle) false (.ended (.ok (onlyFolded (sampleNode 1) (sampleNode 2) []))))
    (commandLog false (sampleNode 1) (sampleNode 2) []) true (sampleNode 2) (sampleNode 1)
    (.inr ⟨rfl, rfl⟩) rfl PUBLISH_BUDGET (.inr rfl) _ hrunning,
    run_cons.mpr ⟨_, recalls_commandState (by decide), run_cons.mpr ⟨_, notes_commandState,
      run_nil.mpr rfl⟩⟩⟩
  have hrun := run_append.mpr ⟨_, hfirst, hsecond⟩
  have halong : Along (Propagate.step adminNode) Propagate.InTurn (Propagate.start (some twoHeld))
      turnEvents := by
    refine along_append.mpr ⟨Propagate.along_inTurn (i := false) ?_ fun j _ => .inl rfl, fun u hu => ?_⟩
    · simp [commandEvents, Propagate.of]
    · obtain rfl := Option.some.inj (hfirst.symm.trans hu)
      refine Propagate.along_inTurn (i := true) ?_ fun j hj => ?_
      · simp [commandEvents, Propagate.of]
      · obtain rfl : j = false := by simpa using hj
        exact .inr ⟨_, stage_commandState⟩
  refine ⟨_, _, hrun, stage_commandState, by decide, ?_⟩
  exact Propagate.none_half_done adminNode (some twoHeld) _ _ hrun
    (Propagate.apart_of_run (along_iff.mp halong)) true _ stage_commandState

/-- Two commands at once, of which the first writes last; then one more. -/
def lostEvents : List (PropagateEvent (nodeId sampleRoot) Nat) :=
  commandEvents 0 (sampleNode 1) 0 ++ .recalls 0 :: (commandEvents 1 (sampleNode 2) 0 ++
    .recalls 1 :: .notes 1 :: .notes 0 :: (commandEvents 2 (sampleNode 1) 0 ++ [.recalls 2]))

/-- Their log. -/
def lostLog : List (PublishDeed (nodeId sampleRoot) Nat) :=
  commandLog 0 (sampleNode 1) (sampleNode 2) [] ++ commandLog 1 (sampleNode 2) (sampleNode 1) [] ++
    commandLog 2 (sampleNode 1) (sampleNode 2) []

theorem run_lostEvents : ∃ s, run (Propagate.step adminNode) (Propagate.start (some twoHeld)) lostEvents =
    some s ∧ s.stage 2 = .ended (.ok (onlyFolded (sampleNode 1) (sampleNode 2) [])) ∧
    s.log = lostLog := by
  have hfirst := @run_command Nat _ ∅ (fun _ => .idle) [] 0 (sampleNode 1) (sampleNode 2)
    (.inl ⟨rfl, rfl⟩) rfl 0 (.inl rfl) _ (missedRunning_of_new rfl)
  have hsecond := @run_command Nat _ ∅ (Function.update (fun _ => .idle) 0 (.noting bareReport
    twoHeld.version (onlyReport (sampleNode 1) (sampleNode 2)) [] ∅)) (commandLog 0 (sampleNode 1)
    (sampleNode 2) []) 1 (sampleNode 2) (sampleNode 1) (.inr ⟨rfl, rfl⟩)
    (Function.update_of_ne (by decide) _ _) 0 (.inl rfl) _ (missedRunning_of_new rfl)
  have hthird := @run_command Nat _ ((∅ : SortedSet NodeId).extend [(sampleNode 1, ())])
    (Function.update (Function.update (fun _ => .idle) 1 (.ended (.ok (onlyFolded (sampleNode 2)
      (sampleNode 1) [])))) 0 (.ended (.ok (onlyFolded (sampleNode 1) (sampleNode 2) []))))
    (commandLog 0 (sampleNode 1) (sampleNode 2) [] ++ commandLog 1 (sampleNode 2) (sampleNode 1) []) 2
    (sampleNode 1) (sampleNode 2) (.inl ⟨rfl, rfl⟩) rfl 0 (.inl (by decide)) _
    (missedRunning_of_new (by decide))
  rw [lostEvents, Propagate.start]
  simp only [run_append, run_cons, run_nil]
  refine ⟨_, ⟨_, hfirst, _, recalls_commandState rfl, _, hsecond, _, recalls_commandState rfl, _,
    notes_commandState, _, ?_, _, hthird, _, recalls_commandState_known (by decide), rfl⟩,
    stage_commandState, rfl⟩
  rw [commandState, Function.update_comm (by decide)]
  exact notes_commandState

/-- The second command's record is lost, so the third ends with no failure though the directory that the
second reached missed its publish. -/
theorem half_done : ∃ (s : Propagate (nodeId sampleRoot) Nat) (report : Report)
    (pushed : Propagation) (before after : List (PublishDeed (nodeId sampleRoot) Nat)),
    run (Propagate.step adminNode) (Propagate.start (some twoHeld)) lostEvents = some s ∧
    s.stage 2 = .ended (.ok report) ∧ report.failure = none ∧
    s.log = before ++ .judged 2 (some twoHeld) pushed :: after ∧
    sampleNode 2 ∈ twoHeld.signed.head.head.directories ∧ HasTaken before (sampleNode 2) ∧
    ¬Delivers before 2 twoHeld (sampleNode 2) := by
  obtain ⟨s, hrun, hended, hlog⟩ := run_lostEvents
  refine ⟨s, _, .fromPublish [] (.ok (twoHeld.version, onlyReport (sampleNode 1) (sampleNode 2))),
    lostLog.take 8, [], hrun, hended, rfl, ?_, ?_, ?_, ?_⟩
  · rw [hlog]
    rfl
  · simp [directories_twoHeld]
  · refine ⟨1, twoHeld, ?_⟩
    have htakes : onlyTakes (sampleNode 2) (sampleNode 2) =
      some (.published twoHeld.version twoHeld.signed.head.hash) := if_pos rfl
    rw [Delivers, ← htakes]
    simp [lostLog, commandLog]
  · have hmissed : onlyTakes (sampleNode 1) (sampleNode 2) = none := rfl
    have hne : sampleNode 2 ≠ sampleNode 1 := by decide
    simp [Delivers, lostLog, commandLog, hmissed, hne]

end Sample

end Wires
