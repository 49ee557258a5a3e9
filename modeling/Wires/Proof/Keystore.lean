import Wires.Framework.JsonRoundTrip
import Wires.Impl.Keystore

/-!
# Keystore files are read whole and keys are kept

Temporary names are told apart by how they are made: `write_private`'s by its
process and counter (`privateTmp_inj`), and neither `save_secret`'s nor a key's
starts with a dot (`head_withExtensionTmp`). So calls at one temporary name are
calls of `save_secret` (`Calls.tmp_ne`), and while no two of those share one
(`Orderly`) every run keeps `Replacing.Good`: a keystore file is replaced whole
(`registers`) and read whole (`read_whole`), and a key, once written, is never
written again (`key_kept`).
-/

namespace Wires

open Keystore Replacing

/-! ## Names -/

theorem not_mem_toDigits (n : Nat) : '.' ∉ Nat.toDigits 10 n := fun h => by
  have := Json.isDigit_toDigits h
  revert this
  decide

namespace FilePath

variable {p q : FilePath}

/-- The process and the counter can be read back off a temporary name. -/
theorem privateTmp_inj {pid pid' n n' : Nat} (h : p.privateTmp pid n = q.privateTmp pid' n') :
    pid = pid' ∧ n = n' := by
  have hname := congrArg FilePath.name h
  simp only [privateTmp] at hname
  have htail := List.append_cancel_right hname
  have hlast : ∀ (p : FilePath) (pid n : Nat),
      rsplitOnce '.' ('.' :: p.name ++ '.' :: Nat.toDigits 10 pid ++ '.' :: Nat.toDigits 10 n) =
        some ('.' :: p.name ++ '.' :: Nat.toDigits 10 pid, Nat.toDigits 10 n) := fun p pid n =>
    rsplitOnce_eq_some_iff.mpr ⟨by simp, not_mem_toDigits n⟩
  have hpid : ∀ (p : FilePath) (pid : Nat),
      rsplitOnce '.' ('.' :: p.name ++ '.' :: Nat.toDigits 10 pid) =
        some ('.' :: p.name, Nat.toDigits 10 pid) := fun p pid =>
    rsplitOnce_eq_some_iff.mpr ⟨by simp, not_mem_toDigits pid⟩
  have hcounter := hlast p pid n
  rw [htail, hlast q pid' n'] at hcounter
  obtain ⟨hrest, hn⟩ := Prod.mk.inj (Option.some.inj hcounter)
  have hprocess := hpid p pid
  rw [← hrest, hpid q pid'] at hprocess
  obtain ⟨-, hp⟩ := Prod.mk.inj (Option.some.inj hprocess)
  have hinj : ∀ {a b : Nat}, Nat.toDigits 10 a = Nat.toDigits 10 b → b = a := fun {a b} hd => by
    have := congrArg (Nat.ofDigitChars 10 · 0) hd
    simp only [Nat.ofDigitChars_ten_toDigits] at this
    exact this.symm
  exact ⟨hinj hp, hinj hn⟩

theorem head_privateTmp {pid n : Nat} : (p.privateTmp pid n).name.head? = some '.' := rfl

theorem head_withExtensionTmp (hne : p.name ≠ []) (hdot : p.name.head? ≠ some '.') :
    p.withExtensionTmp.name.head? ≠ some '.' := by
  have hstem : p.fileStem ≠ [] ∧ p.fileStem.head? = p.name.head? := by
    unfold fileStem
    split
    · exact ⟨hne, rfl⟩
    · exact ⟨hne, rfl⟩
    · rename_i before after hempty hsplit
      obtain ⟨heq, -⟩ := rsplitOnce_eq_some_iff.mp hsplit
      have hbefore : before ≠ [] := fun hb => hempty hb
      refine ⟨hbefore, ?_⟩
      rw [heq, List.head?_append_of_ne_nil _ hbefore]
  rw [withExtensionTmp, List.head?_append_of_ne_nil _ hstem.1, hstem.2]
  exact hdot

theorem made_privateTmp {pid n : Nat} : (p.privateTmp pid n).made = true := by
  have : tmpSuffix <:+ (p.privateTmp pid n).name := List.suffix_append _ _
  simp [made, this]

theorem made_withExtensionTmp : p.withExtensionTmp.made = true := by
  have : tmpSuffix <:+ p.withExtensionTmp.name := List.suffix_append _ _
  simp [made, this]

theorem made_key (h : p.name ∈ keys) : p.made = true := by simp [made, h]

theorem key_not_tmp (h : p.name ∈ keys) : p.name.head? ≠ some '.' ∧ ¬tmpSuffix <:+ p.name := by
  simp only [keys, List.mem_cons, List.not_mem_nil, or_false] at h
  rcases h with h | h <;> rw [h] <;> decide

end FilePath

/-! ## What a step does -/

namespace Keystores

variable {ρ : Type} [DecidableEq ρ]

/-- A process starts or stops, or calls, or a call or a reader goes on. -/
inductive Goes (s : Keystores ρ) : KeystoresEvent ρ → Keystores ρ → Prop
  | starts {pid} : s.counters pid = none →
    Goes s (.starts pid) { s with counters := Function.update s.counters pid (some 0) }
  | stops {pid} : s.busy pid = false →
    Goes s (.stops pid) { s with counters := Function.update s.counters pid none }
  | calls {pid write n disk} : s.counters pid = some n →
    s.disk.step (.begins s.calls.length (write.job pid n)) = some disk →
    Goes s (.calls pid write)
      { disk, calls := s.calls ++ [⟨pid, n, write⟩],
        counters := Function.update s.counters pid (some (write.counted n)) }
  | does {e disk} : (∀ i job, e ≠ .begins i job) → s.disk.step e = some disk →
    Goes s (.does e) { s with disk }

variable {s t : Keystores ρ} {e : KeystoresEvent ρ}

theorem goes_of_step (h : s.step e = some t) : s.Goes e t := by
  cases e with
  | starts pid =>
    simp only [step] at h
    split at h
    · rename_i hpid
      cases h
      exact .starts hpid
    · cases h
  | calls pid write =>
    simp only [step] at h
    split at h
    · cases h
    · rename_i n hpid
      obtain ⟨disk, hdisk, rfl⟩ := Option.map_eq_some_iff.mp h
      exact .calls hpid hdisk
  | stops pid =>
    simp only [step] at h
    split at h
    · cases h
    · split_ifs at h with hbusy
      cases h
      exact .stops (Bool.eq_false_iff.mpr hbusy)
  | does e =>
    have hdisk : (∀ i job, e ≠ .begins i job) ∧
        (s.disk.step e).map (fun disk => { s with disk }) = some t := by
      cases e with
      | begins i job => cases h
      | _ => exact ⟨by simp, h⟩
    obtain ⟨disk, hdisk', rfl⟩ := Option.map_eq_some_iff.mp hdisk.2
    exact .does hdisk.1 hdisk'

/-! ## No two calls at one temporary name -/

/-- What callers and the system keep to: what is written fits, a process makes fewer than 2^64
calls, no `save_secret` begins while another has its temporary file, and nobody else removes a
temporary file or a key. -/
def Orderly (s : Keystores ρ) : KeystoresEvent ρ → Prop
  | .calls pid write => write.Fits ∧ (∀ n, s.counters pid = some n → n + 1 < 2 ^ 64) ∧
    ∀ p contents, write = .saveSecret p contents → ∀ (i : Nat) call job stage q contents',
      s.calls[i]? = some call → s.disk.jobs i = some (job, stage) → stage.Live →
      call.write = .saveSecret q contents' → q.withExtensionTmp ≠ p.withExtensionTmp
  | .does (.removes p) => p.made = false
  | _ => True

/-- Each job is a call's, whose process runs while it does, with a counter past the call's. -/
structure Calls (s : Keystores ρ) : Prop where
  job : ∀ i job stage, s.disk.jobs i = some (job, stage) → ∃ call : WriteCall,
    s.calls[i]? = some call ∧ job = call.write.job call.pid call.n ∧ call.write.Fits
  running : ∀ (i : Nat) call job stage, s.calls[i]? = some call → s.disk.jobs i = some (job, stage) →
    stage.Live → ∃ n, s.counters call.pid = some n ∧
      ∀ p contents, call.write = .writePrivate p contents → call.n < n

omit [DecidableEq ρ] in
theorem calls_start {files : Files FilePath UInt8} : (start files : Keystores ρ).Calls where
  job i job stage h := by cases h
  running i call job stage h := by cases h

omit [DecidableEq ρ] in
/-- A process with a call that has not returned is busy. -/
theorem busy_of_live {i : Nat} {call : WriteCall} {job : Replace.Job FilePath UInt8}
    {stage : Replace.Stage UInt8} (hc : s.calls[i]? = some call)
    (hi : s.disk.jobs i = some (job, stage)) (hlive : stage.Live) : s.busy call.pid = true := by
  have hlt : i < s.calls.length := (List.getElem?_eq_some_iff.mp hc).1
  refine List.any_eq_true.mpr ⟨i, List.mem_range.mpr hlt, ?_⟩
  rw [hc, hi]
  cases stage with
  | returned ok => exact hlive.elim
  | clears | creates | writes _ _ | cleans => exact decide_eq_true rfl

theorem Calls.step (h : s.Calls) (ho : s.Orderly e) (hm : s.Goes e t) : t.Calls := by
  cases hm with
  | @starts pid hpid =>
    refine ⟨h.job, fun i call job stage hc hi hlive => ?_⟩
    obtain ⟨n, hn, hlt⟩ := h.running i call job stage hc hi hlive
    have hne : call.pid ≠ pid := by
      rintro rfl
      rw [hpid] at hn
      cases hn
    exact ⟨n, (Function.update_of_ne hne _ _).trans hn, hlt⟩
  | @stops pid hbusy =>
    refine ⟨h.job, fun i call job stage hc hi hlive => ?_⟩
    obtain ⟨n, hn, hlt⟩ := h.running i call job stage hc hi hlive
    have hne : call.pid ≠ pid := by
      rintro rfl
      have hlives : s.busy call.pid = true := busy_of_live hc hi hlive
      rw [hlives] at hbusy
      cases hbusy
    exact ⟨n, (Function.update_of_ne hne _ _).trans hn, hlt⟩
  | @calls pid write n disk hpid hstep =>
    have hmoves := moves_of_step hstep
    obtain ⟨hfits, hwraps, -⟩ := ho
    have hcounted : write.counted n = n ∨
        (write.counted n = n + 1 ∧ ∃ p contents, write = .writePrivate p contents) := by
      cases write with
      | writePrivate p contents => exact .inr ⟨Nat.mod_eq_of_lt (hwraps n hpid), p, contents, rfl⟩
      | writeSecret _ _ => exact .inl rfl
      | saveSecret _ _ => exact .inl rfl
    have hle : n ≤ write.counted n := by omega
    have hold : ∀ (i : Nat) call job stage, s.calls[i]? = some call →
        s.disk.jobs i = some (job, stage) → stage.Live →
        ∃ k, Function.update s.counters pid (some (write.counted n)) call.pid = some k ∧
          ∀ p contents, call.write = .writePrivate p contents → call.n < k := by
      intro i call job stage hc hi hlive
      obtain ⟨k, hk, hlt⟩ := h.running i call job stage hc hi hlive
      rw [Function.update_apply]
      split_ifs with heq
      · rw [heq, hpid] at hk
        cases hk
        exact ⟨_, rfl, fun p contents hw => (hlt p contents hw).trans_le hle⟩
      · exact ⟨k, hk, hlt⟩
    have hlast : ∀ i job stage, disk.jobs i = some (job, stage) →
        (∃ stage', s.disk.jobs i = some (job, stage') ∧ (stage.Live → stage'.Live)) ∨
          (i = s.calls.length ∧ job = write.job pid n) := by
      intro i job stage hi
      rcases hmoves.of_jobs hi with hold | ⟨heq, -⟩
      · exact .inl hold
      · simp only [ReplaceEvent.begins.injEq] at heq
        exact .inr ⟨heq.1.symm, heq.2.symm⟩
    refine ⟨fun i job stage hi => ?_, fun i call job stage hc hi hlive => ?_⟩
    · rcases hlast i job stage hi with ⟨stage', hi', -⟩ | ⟨rfl, rfl⟩
      · obtain ⟨call, hc, hjob⟩ := h.job i job stage' hi'
        exact ⟨call, List.getElem?_append_left (List.getElem?_eq_some_iff.mp hc).1 |>.trans hc, hjob⟩
      · exact ⟨⟨pid, n, write⟩, List.getElem?_concat_length, rfl, hfits⟩
    · rcases hlast i job stage hi with ⟨stage', hi', hl⟩ | ⟨rfl, -⟩
      · obtain ⟨call', hc', -⟩ := h.job i job stage' hi'
        have hlt := (List.getElem?_eq_some_iff.mp hc').1
        change (s.calls ++ [_])[i]? = some call at hc
        rw [List.getElem?_append_left hlt] at hc
        exact hold i call job stage' hc hi' (hl hlive)
      · change (s.calls ++ [_])[s.calls.length]? = some call at hc
        rw [List.getElem?_concat_length] at hc
        cases hc
        refine ⟨write.counted n, Function.update_self .., fun p contents hw => ?_⟩
        show n < write.counted n
        rcases hcounted with heq | ⟨heq, -⟩
        · have hw' : write = .writePrivate p contents := hw
          rw [hw'] at heq
          have : (n + 1) % 2 ^ 64 = n := heq
          rw [Nat.mod_eq_of_lt (hwraps n hpid)] at this
          omega
        · omega
  | @does e' disk hnot hstep =>
    have hmoves := moves_of_step hstep
    have hold : ∀ i job stage, disk.jobs i = some (job, stage) →
        ∃ stage', s.disk.jobs i = some (job, stage') ∧ (stage.Live → stage'.Live) := by
      intro i job stage hi
      rcases hmoves.of_jobs hi with hold | ⟨heq, -⟩
      · exact hold
      · exact absurd heq (hnot i job)
    refine ⟨fun i job stage hi => ?_, fun i call job stage hc hi hlive => ?_⟩
    · obtain ⟨stage', hi', -⟩ := hold i job stage hi
      exact h.job i job stage' hi'
    · obtain ⟨stage', hi', hl⟩ := hold i job stage hi
      exact h.running i call job stage' hc hi' (hl hlive)

omit [DecidableEq ρ] in
/-- A call that begins is at no other's temporary name, unless both make keys. -/
theorem Calls.tmp_ne (h : s.Calls) {pid n : Nat} {write : Write} (ho : s.Orderly (.calls pid write))
    (hpid : s.counters pid = some n) {i : Nat} {other : Replace.Job FilePath UInt8}
    {stage : Replace.Stage UInt8} (hi : s.disk.jobs i = some (other, stage)) (hlive : stage.Live)
    (htemp : other.temp = (write.job pid n).temp) :
    (write.job pid n).unlinks = false ∧ other.unlinks = false := by
  obtain ⟨hfits, -, hsave⟩ := ho
  obtain ⟨⟨pid', n', write'⟩, hc, rfl, hfits'⟩ := h.job i other stage hi
  obtain ⟨k, hk, hlt⟩ := h.running i _ _ stage hc hi hlive
  cases write with
  | writePrivate p contents =>
    cases write' with
    | writePrivate q contents' =>
      obtain ⟨rfl, rfl⟩ := FilePath.privateTmp_inj htemp
      rw [hpid] at hk
      cases hk
      exact absurd (hlt q contents' rfl) (lt_irrefl _)
    | writeSecret q contents' =>
      have heq : q = p.privateTmp pid n := htemp
      exact absurd (heq ▸ FilePath.head_privateTmp) (FilePath.key_not_tmp hfits').1
    | saveSecret q contents' =>
      have heq : q.withExtensionTmp = p.privateTmp pid n := htemp
      exact absurd (heq ▸ FilePath.head_privateTmp)
        (FilePath.head_withExtensionTmp hfits'.2.1 hfits'.2.2)
  | writeSecret p contents =>
    cases write' with
    | writePrivate q contents' =>
      have heq : q.privateTmp pid' n' = p := htemp
      exact absurd (heq ▸ FilePath.head_privateTmp) (FilePath.key_not_tmp hfits).1
    | writeSecret q contents' => exact ⟨rfl, rfl⟩
    | saveSecret q contents' =>
      have heq : q.withExtensionTmp = p := htemp
      exact absurd (heq ▸ List.suffix_append _ _) (FilePath.key_not_tmp hfits).2
  | saveSecret p contents =>
    cases write' with
    | writePrivate q contents' =>
      have heq : q.privateTmp pid' n' = p.withExtensionTmp := htemp
      exact absurd (heq ▸ FilePath.head_privateTmp)
        (FilePath.head_withExtensionTmp hfits.2.1 hfits.2.2)
    | writeSecret q contents' =>
      have heq : q = p.withExtensionTmp := htemp
      exact absurd (heq ▸ List.suffix_append _ _) (FilePath.key_not_tmp hfits').2
    | saveSecret q contents' => exact absurd htemp (hsave p contents rfl i _ _ stage q contents' hc hi hlive rfl)

/-! ## Runs -/

theorem Calls.moves (h : s.Calls) (ho : s.Orderly e) (hm : s.Goes e t) : t.disk = s.disk ∨
    ∃ d, s.disk.step d = some t.disk ∧ s.disk.Apart FilePath.made d ∧
      ∀ p : FilePath, p.name ∈ keys → InPlace p d := by
  cases hm with
  | starts _ => exact .inl rfl
  | stops _ => exact .inl rfl
  | @calls pid write n disk hpid hstep =>
    refine .inr ⟨_, hstep, ⟨?_, fun target htarget => ?_, fun j other stage hj hlive htemp => ?_⟩,
      fun p hp i job he htemp => ?_⟩
    · cases write with
      | writePrivate p contents => exact FilePath.made_privateTmp
      | writeSecret p contents => exact FilePath.made_key ho.1
      | saveSecret p contents => exact FilePath.made_withExtensionTmp
    · cases write with
      | writePrivate p contents =>
        cases htarget
        exact ho.1.1
      | writeSecret p contents => cases htarget
      | saveSecret p contents =>
        cases htarget
        exact ho.1.1
    · exact h.tmp_ne ho hpid hj hlive htemp
    · cases he
      cases write with
      | writePrivate q contents =>
        have heq : q.privateTmp pid n = p := htemp
        exact absurd (heq ▸ FilePath.head_privateTmp) (FilePath.key_not_tmp hp).1
      | writeSecret q contents => exact ⟨rfl, rfl⟩
      | saveSecret q contents =>
        have heq : q.withExtensionTmp = p := htemp
        exact absurd (heq ▸ List.suffix_append _ _) (FilePath.key_not_tmp hp).2
  | @does d disk hnot hstep =>
    refine .inr ⟨d, hstep, ?_, fun p _ i job he => absurd he (hnot i job)⟩
    cases d with
    | begins i job => exact absurd rfl (hnot i job)
    | removes p => exact ho
    | _ => trivial

/-- A run is one of the disk. -/
theorem disk_of_run {es : List (KeystoresEvent ρ)} (h : s.Calls) (horder : Along step Orderly s es)
    (hrun : run step s es = some t) : t.Calls ∧ ∃ ds, run Replacing.step s.disk ds = some t.disk ∧
      Along Replacing.step (fun v d => v.Apart FilePath.made d ∧
        ∀ p : FilePath, p.name ∈ keys → InPlace p d) s.disk ds := by
  induction es generalizing s with
  | nil =>
    obtain rfl := run_nil.mp hrun
    exact ⟨h, [], rfl, trivial⟩
  | cons e es ih =>
    obtain ⟨u, hu, hrest⟩ := run_cons.mp hrun
    have hgoes := goes_of_step hu
    obtain ⟨hcalls, ds, hds, hall⟩ := ih (h.step horder.1 hgoes) (horder.2 u hu) hrest
    refine ⟨hcalls, ?_⟩
    rcases h.moves horder.1 hgoes with hsame | ⟨d, hd, hd'⟩
    · rw [hsame] at hds hall
      exact ⟨ds, hds, hall⟩
    · refine ⟨d :: ds, run_cons.mpr ⟨u.disk, hd, hds⟩, hd', fun v hv => ?_⟩
      rw [hd] at hv
      cases hv
      exact hall

/-- What a disk has before any call: each file under one name. -/
def Plain (files : Files FilePath UInt8) : Prop :=
  (∀ p file, files.names p = some file → file < files.next) ∧
  ∀ p q file, files.names p = some file → files.names q = some file → p = q

theorem good_of_run {files : Files FilePath UInt8} {es : List (KeystoresEvent ρ)}
    (hplain : Plain files)
    (horder : Along step Orderly (start files) es) (hrun : run step (start files) es = some t) : t.Calls ∧ t.disk.Good FilePath.made := by
  obtain ⟨hcalls, ds, hds, hall⟩ := disk_of_run calls_start horder hrun
  exact ⟨hcalls, Replacing.good_of_run (good_start hplain.1 hplain.2)
    (hall.mono fun v d hd => hd.1) hds⟩

/-- No file. -/
def sampleFiles : Files FilePath UInt8 := ⟨fun _ => none, fun _ => [], 0⟩

theorem plain_sampleFiles : Plain sampleFiles := ⟨fun _ _ h => (by cases h), fun _ _ _ h => (by cases h)⟩

/-- **A key is kept.** In any run, a key that is there at the start stays as it is and no call that
writes it returns `Ok`; else at most one does, and what it wrote stays. -/
theorem key_kept {files : Files FilePath UInt8} {es : List (KeystoresEvent ρ)} {p : FilePath}
    (hplain : Plain files)
    (horder : Along step Orderly (start files) es) (hrun : run step (start files) es = some t)
    (hp : p.name ∈ keys) :
    (∀ contents, files.lookup p = some contents → t.disk.files.lookup p = some contents ∧
      ∀ (i : Nat) call job, t.calls[i]? = some call → call.write.path = p →
        t.disk.jobs i ≠ some (job, .returned true)) ∧
    (∀ (i j : Nat) a b job job', t.calls[i]? = some a → t.calls[j]? = some b → a.write.path = p →
      b.write.path = p → t.disk.jobs i = some (job, .returned true) →
      t.disk.jobs j = some (job', .returned true) → i = j) ∧
    ∀ (i : Nat) call job, t.calls[i]? = some call → call.write.path = p →
      t.disk.jobs i = some (job, .returned true) → t.disk.files.lookup p = some call.write.bytes := by
  obtain ⟨hcalls, ds, hds, hall⟩ := disk_of_run calls_start horder hrun
  have hmade := FilePath.made_key hp
  have hplaced : t.disk.Placed p (files.lookup p) :=
    kept_in_place (good_start hplain.1 hplain.2) hmade
      (hall.mono fun v d hd => ⟨hd.1, hd.2 p hp⟩) hds
  -- a call that writes a key makes it in place
  have hat : ∀ (i : Nat) call job, t.calls[i]? = some call → call.write.path = p →
      t.disk.jobs i = some (job, .returned true) →
      job.temp = p ∧ job.contents = call.write.bytes := by
    intro i call job hc hpath hi
    obtain ⟨call', hc', rfl, hfits⟩ := hcalls.job i job _ hi
    rw [hc] at hc'
    cases hc'
    cases hw : call.write with
    | writePrivate q contents =>
      rw [hw] at hfits hpath
      obtain rfl : q = p := hpath
      exact absurd (hmade.symm.trans hfits.1) (by decide)
    | writeSecret q contents =>
      rw [hw] at hpath
      exact ⟨hpath, rfl⟩
    | saveSecret q contents =>
      rw [hw] at hfits hpath
      obtain rfl : q = p := hpath
      exact absurd (hmade.symm.trans hfits.1) (by decide)
  refine ⟨fun contents hheld => ?_, fun i j a b job job' ha hb hpa hpb hi hj => ?_,
    fun i call job hc hpath hi => ?_⟩
  · obtain ⟨hlookup, hnobody⟩ := hplaced.held contents hheld
    refine ⟨hlookup, fun i call job hc hpath hi => hnobody i ?_⟩
    exact ⟨job, _, hi, (hat i call job hc hpath hi).1, .inl rfl⟩
  · exact hplaced.one i j ⟨job, _, hi, (hat i a job ha hpa hi).1, .inl rfl⟩
      ⟨job', _, hj, (hat j b job' hb hpb hj).1, .inl rfl⟩
  · obtain ⟨htemp, hcontents⟩ := hat i call job hc hpath hi
    rw [hplaced.whole i job hi htemp, hcontents]

def sampleKeyFile : FilePath := ⟨"/keys".toList, "node.seed".toList⟩

theorem key_sampleKeyFile : sampleKeyFile.name ∈ keys := by decide

/-- Two processes write a key. -/
def sampleKeys : List (KeystoresEvent Unit) :=
  [.starts 7, .starts 8, .calls 7 (.writeSecret sampleKeyFile ['a']),
    .calls 8 (.writeSecret sampleKeyFile ['b']), .does (.creates 1 false), .does (.creates 0 false),
    .does (.writes 1 2), .does (.ends 1)]

theorem key_kept_sample : ∃ t : Keystores Unit, run step (start sampleFiles) sampleKeys = some t ∧
    (∃ job, t.disk.jobs 1 = some (job, .returned true)) ∧
    t.disk.files.lookup sampleKeyFile = some [98, 10] ∧
    (∀ contents, sampleFiles.lookup sampleKeyFile = some contents →
      t.disk.files.lookup sampleKeyFile = some contents ∧
      ∀ (i : Nat) call job, t.calls[i]? = some call → call.write.path = sampleKeyFile →
        t.disk.jobs i ≠ some (job, .returned true)) ∧
    (∀ (i j : Nat) a b job job', t.calls[i]? = some a → t.calls[j]? = some b →
      a.write.path = sampleKeyFile → b.write.path = sampleKeyFile →
      t.disk.jobs i = some (job, .returned true) → t.disk.jobs j = some (job', .returned true) →
      i = j) ∧
    ∀ (i : Nat) call job, t.calls[i]? = some call → call.write.path = sampleKeyFile →
      t.disk.jobs i = some (job, .returned true) →
      t.disk.files.lookup sampleKeyFile = some call.write.bytes := by
  have horder : Along step Orderly (start sampleFiles) sampleKeys := by
    refine ⟨trivial, fun s hs => ⟨trivial, fun t ht => ?_⟩⟩
    cases hs
    cases ht
    refine ⟨⟨key_sampleKeyFile, fun n hn => ?_, fun _ _ hw => by cases hw⟩, fun s hs => ?_⟩
    · cases hn
      decide
    cases hs
    refine ⟨⟨key_sampleKeyFile, fun n hn => ?_, fun _ _ hw => by cases hw⟩, fun _ _ => ⟨trivial, fun _ _ =>
      ⟨trivial, fun _ _ => ⟨trivial, fun _ _ => ⟨trivial, fun _ _ => trivial⟩⟩⟩⟩⟩
    cases hn
    decide
  exact ⟨_, rfl, ⟨_, rfl⟩, by decide, key_kept plain_sampleFiles horder rfl key_sampleKeyFile⟩

end Keystores

end Wires
