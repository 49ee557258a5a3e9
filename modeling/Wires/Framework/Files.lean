import Wires.Framework.Run
import Mathlib.Data.List.Infix
import Mathlib.Logic.Function.Basic

/-!
# Files replaced whole

A directory gives names to files, and an open file stays what it is whatever
becomes of its name. A job makes a file under a name of its own and renames it
over its target, or makes it in place, under a name that has none yet. Readers
open a name and read on, some items at a time. Jobs, readers and whoever removes
files take steps in any order, and a job may stop at any of its own.

Where no two jobs are at one name of their own that one of them unlinks
(`Apart`), the names readers open behave as a register: a rename is the only
step that gives one of them new contents, all of them at once (`lookup_step`),
and a reader gets what the name held when it was opened (`reads_whole`). A file
made in place stays what it was made as (`kept_in_place`).
-/

namespace Wires

/-! ## Names and files -/

/-- The file each name refers to, what each file holds, and which were never used. -/
structure Files (ν β : Type) where
  names : ν → Option Nat
  contents : Nat → List β
  next : Nat

namespace Files

variable {ν β : Type}

/-- What a name's file holds. -/
def lookup (f : Files ν β) (n : ν) : Option (List β) := (f.names n).map f.contents

variable [DecidableEq ν]

/-- `open` with `O_CREAT | O_EXCL`, where the name has no file: an empty one. -/
def create (f : Files ν β) (n : ν) : Files ν β where
  names := Function.update f.names n (some f.next)
  contents := Function.update f.contents f.next []
  next := f.next + 1

omit [DecidableEq ν] in
/-- `write`, at the end of a file. -/
def append (f : Files ν β) (file : Nat) (items : List β) : Files ν β :=
  { f with contents := Function.update f.contents file (f.contents file ++ items) }

/-- `rename`. -/
def rename (f : Files ν β) (old new : ν) : Files ν β :=
  { f with names := Function.update (Function.update f.names old none) new (f.names old) }

/-- `unlink`. -/
def unlink (f : Files ν β) (n : ν) : Files ν β :=
  { f with names := Function.update f.names n none }

theorem names_create {f : Files ν β} {n m : ν} :
    (f.create n).names m = if m = n then some f.next else f.names m := Function.update_apply ..

theorem contents_create {f : Files ν β} {n : ν} {file : Nat} :
    (f.create n).contents file = if file = f.next then [] else f.contents file :=
  Function.update_apply ..

omit [DecidableEq ν] in
theorem contents_append {f : Files ν β} {file k : Nat} {items : List β} :
    (f.append file items).contents k = if k = file then f.contents file ++ items else f.contents k :=
  Function.update_apply ..

theorem names_rename {f : Files ν β} {old new m : ν} : (f.rename old new).names m =
    if m = new then f.names old else if m = old then none else f.names m := by
  simp only [rename, Function.update_apply]

theorem names_unlink {f : Files ν β} {n m : ν} :
    (f.unlink n).names m = if m = n then none else f.names m := Function.update_apply ..

theorem lookup_unlink_of_ne {f : Files ν β} {n m : ν} (h : m ≠ n) :
    (f.unlink n).lookup m = f.lookup m := by
  unfold lookup
  rw [names_unlink, if_neg h]
  rfl

theorem lookup_create_of_ne {f : Files ν β} {n m : ν} (h : m ≠ n)
    (hnamed : ∀ file, f.names m = some file → file < f.next) :
    (f.create n).lookup m = f.lookup m := by
  unfold lookup
  rw [names_create, if_neg h]
  cases hname : f.names m with
  | none => rfl
  | some file => rw [Option.map_some, Option.map_some, contents_create, if_neg (hnamed file hname).ne]

omit [DecidableEq ν] in
theorem lookup_append_of_ne {f : Files ν β} {file : Nat} {items : List β} {m : ν}
    (h : f.names m ≠ some file) : (f.append file items).lookup m = f.lookup m := by
  unfold lookup
  show (f.names m).map _ = _
  cases hname : f.names m with
  | none => rfl
  | some k =>
    have hk : k ≠ file := by
      rintro rfl
      exact h hname
    rw [Option.map_some, Option.map_some, contents_append, if_neg hk]

theorem lookup_rename_of_ne {f : Files ν β} {old new m : ν} (hnew : m ≠ new) (hold : m ≠ old) :
    (f.rename old new).lookup m = f.lookup m := by
  unfold lookup
  rw [names_rename, if_neg hnew, if_neg hold]
  rfl

end Files

/-! ## Jobs and readers -/

namespace Replace

/-- A file to be made: under which name, over which target it is then renamed (none: it is made in
place), its contents, and whether the name is unlinked first, or after a failure. -/
structure Job (ν β : Type) where
  temp : ν
  target : Option ν
  contents : List β
  clears : Bool
  cleans : Bool

/-- Whether it ever unlinks its name. -/
def Job.unlinks {ν β : Type} (job : Job ν β) : Bool := job.clears || job.cleans

/-- Where a job is. -/
inductive Stage (β : Type) where
  | clears
  | creates
  /-- The file is open; what is not written yet. -/
  | writes (file : Nat) (rest : List β)
  | cleans
  | returned (ok : Bool)

/-- A job that may take a step. -/
def Stage.Live {β : Type} : Stage β → Prop
  | .returned _ => False
  | _ => True

/-- A file opened under a name, what was read of it, and whether its end was. -/
structure Reader (ν β : Type) where
  name : ν
  file : Nat
  got : List β
  ended : Bool

end Replace

open Replace

/-- The files, the jobs and the readers. -/
structure Replacing (ν β ι ρ : Type) where
  files : Files ν β
  jobs : ι → Option (Job ν β × Stage β)
  readers : ρ → Option (Reader ν β)

/-- A step of a job, of a reader, or of who removes a file. -/
inductive ReplaceEvent (ν β ι ρ : Type) where
  | begins (i : ι) (job : Job ν β)
  | clears (i : ι)
  /-- The file is made, unless its name has one or an error comes first. -/
  | creates (i : ι) (fault : Bool)
  /-- Some of what is left is written. -/
  | writes (i : ι) (count : Nat)
  /-- A write, or the rename, fails. -/
  | fails (i : ι)
  /-- All is written: the file is renamed. -/
  | ends (i : ι)
  | cleans (i : ι)
  /-- The job's process is gone. -/
  | dies (i : ι)
  | removes (n : ν)
  | opens (r : ρ) (n : ν)
  /-- Up to `count + 1` items are read. -/
  | reads (r : ρ) (count : Nat)

namespace Replacing

variable {ν β ι ρ : Type} [DecidableEq ν] [DecidableEq ι] [DecidableEq ρ]

/-- Job `i` comes to a stage. -/
def goes (s : Replacing ν β ι ρ) (i : ι) (job : Job ν β) (stage : Stage β) : Replacing ν β ι ρ :=
  { s with jobs := Function.update s.jobs i (some (job, stage)) }

/-- After an error. -/
def failed (s : Replacing ν β ι ρ) (i : ι) (job : Job ν β) : Replacing ν β ι ρ :=
  s.goes i job (if job.cleans then .cleans else .returned false)

/-- One step. -/
def step (s : Replacing ν β ι ρ) : ReplaceEvent ν β ι ρ → Option (Replacing ν β ι ρ)
  | .begins i job =>
    match s.jobs i with
    | none => some (s.goes i job (if job.clears then .clears else .creates))
    | some _ => none
  | .clears i =>
    match s.jobs i with
    | some (job, .clears) => some { s.goes i job .creates with files := s.files.unlink job.temp }
    | _ => none
  | .creates i fault =>
    match s.jobs i with
    | some (job, .creates) =>
      if fault = false ∧ s.files.names job.temp = none then
        some { s.goes i job (.writes s.files.next job.contents) with
          files := s.files.create job.temp }
      else some (s.failed i job)
    | _ => none
  | .writes i count =>
    match s.jobs i with
    | some (job, .writes file rest) =>
      some { s.goes i job (.writes file (rest.drop count)) with
        files := s.files.append file (rest.take count) }
    | _ => none
  | .fails i =>
    match s.jobs i with
    | some (job, .writes _ _) => some (s.failed i job)
    | _ => none
  | .ends i =>
    match s.jobs i with
    | some (job, .writes _ []) =>
      match job.target, s.files.names job.temp with
      | none, _ => some (s.goes i job (.returned true))
      | some _, none => some (s.failed i job)
      | some target, some _ =>
        some { s.goes i job (.returned true) with files := s.files.rename job.temp target }
    | _ => none
  | .cleans i =>
    match s.jobs i with
    | some (job, .cleans) =>
      some { s.goes i job (.returned false) with files := s.files.unlink job.temp }
    | _ => none
  | .dies i =>
    match s.jobs i with
    | none | some (_, .returned _) => none
    | some (job, _) => some (s.goes i job (.returned false))
  | .removes n => some { s with files := s.files.unlink n }
  | .opens r n =>
    match s.readers r, s.files.names n with
    | none, some file => some { s with
        readers := Function.update s.readers r (some ⟨n, file, [], false⟩) }
    | _, _ => none
  | .reads r count =>
    match s.readers r with
    | some ⟨n, file, got, false⟩ =>
      let items := ((s.files.contents file).drop got.length).take (count + 1)
      some { s with
        readers := Function.update s.readers r (some ⟨n, file, got ++ items, items.isEmpty⟩) }
    | _ => none

/-- Files, with no job begun and nobody reading. -/
def start (files : Files ν β) : Replacing ν β ι ρ := ⟨files, fun _ => none, fun _ => none⟩

/-! ## What a step does -/

/-- A job steps, a file is removed, or a reader reads. -/
inductive Moves (s : Replacing ν β ι ρ) : ReplaceEvent ν β ι ρ → Replacing ν β ι ρ → Prop
  | begins {i job stage} : s.jobs i = none →
    (stage = .clears ∧ job.clears = true) ∨ stage = .creates →
    Moves s (.begins i job) (s.goes i job stage)
  | clears {i job} : s.jobs i = some (job, .clears) →
    Moves s (.clears i) { s.goes i job .creates with files := s.files.unlink job.temp }
  | creates {i job} : s.jobs i = some (job, .creates) → s.files.names job.temp = none →
    Moves s (.creates i false) { s.goes i job (.writes s.files.next job.contents) with
      files := s.files.create job.temp }
  | writes {i job file rest count} : s.jobs i = some (job, .writes file rest) →
    Moves s (.writes i count) { s.goes i job (.writes file (rest.drop count)) with
      files := s.files.append file (rest.take count) }
  | fails {e i job stage stage'} : s.jobs i = some (job, stage) → stage.Live →
    (stage' = .cleans ∧ job.cleans = true) ∨ stage' = .returned false →
    (∃ fault, e = .creates i fault) ∨ e = .fails i ∨ e = .ends i ∨ e = .dies i →
    Moves s e (s.goes i job stage')
  | placed {i job file} : s.jobs i = some (job, .writes file []) → job.target = none →
    Moves s (.ends i) (s.goes i job (.returned true))
  | renamed {i job file target} : s.jobs i = some (job, .writes file []) →
    job.target = some target → Moves s (.ends i) { s.goes i job (.returned true) with
      files := s.files.rename job.temp target }
  | cleans {i job} : s.jobs i = some (job, .cleans) →
    Moves s (.cleans i) { s.goes i job (.returned false) with files := s.files.unlink job.temp }
  | removes {n} : Moves s (.removes n) { s with files := s.files.unlink n }
  | opens {r n file} : s.readers r = none → s.files.names n = some file →
    Moves s (.opens r n) { s with
      readers := Function.update s.readers r (some ⟨n, file, [], false⟩) }
  | reads {r n file got count items} : s.readers r = some ⟨n, file, got, false⟩ →
    items = ((s.files.contents file).drop got.length).take (count + 1) →
    Moves s (.reads r count) { s with
      readers := Function.update s.readers r (some ⟨n, file, got ++ items, items.isEmpty⟩) }

variable {s t : Replacing ν β ι ρ} {e : ReplaceEvent ν β ι ρ}

theorem moves_failed {i : ι} {job : Job ν β} {stage : Stage β} (hi : s.jobs i = some (job, stage))
    (hl : stage.Live) (he : (∃ fault, e = .creates i fault) ∨ e = .fails i ∨ e = .ends i ∨ e = .dies i) :
    Moves s e (s.failed i job) := by
  unfold failed
  split_ifs with hcleans
  · exact .fails hi hl (.inl ⟨rfl, hcleans⟩) he
  · exact .fails hi hl (.inr rfl) he

theorem moves_of_step (h : s.step e = some t) : Moves s e t := by
  cases e with
  | begins i job =>
    simp only [step] at h
    split at h
    · rename_i hi
      cases h
      refine .begins hi ?_
      split_ifs with hc
      · exact .inl ⟨rfl, hc⟩
      · exact .inr rfl
    · cases h
  | clears i =>
    simp only [step] at h
    split at h
    · rename_i hi
      cases h
      exact .clears hi
    · cases h
  | creates i fault =>
    simp only [step] at h
    split at h
    · rename_i job hi
      split_ifs at h with hfree
      · obtain ⟨rfl, hfree⟩ := hfree
        cases h
        exact .creates hi hfree
      · cases h
        exact moves_failed hi trivial (.inl ⟨_, rfl⟩)
    · cases h
  | writes i count =>
    simp only [step] at h
    split at h
    · rename_i hi
      cases h
      exact .writes hi
    · cases h
  | fails i =>
    simp only [step] at h
    split at h
    · rename_i hi
      cases h
      exact moves_failed hi trivial (.inr (.inl rfl))
    · cases h
  | ends i =>
    simp only [step] at h
    split at h
    · rename_i job file hi
      split at h
      · rename_i htarget
        cases h
        exact .placed hi htarget
      · cases h
        exact moves_failed hi trivial (.inr (.inr (.inl rfl)))
      · rename_i target _ htarget _
        cases h
        exact .renamed hi htarget
    · cases h
  | cleans i =>
    simp only [step] at h
    split at h
    · rename_i hi
      cases h
      exact .cleans hi
    · cases h
  | dies i =>
    simp only [step] at h
    split at h
    · cases h
    · cases h
    · rename_i job stage hnot hi
      cases h
      refine .fails hi ?_ (.inr rfl) (.inr (.inr (.inr rfl)))
      cases stage with
      | returned ok => exact absurd rfl (hnot ok)
      | clears | creates | writes _ _ | cleans => trivial
  | removes n =>
    cases h
    exact .removes
  | opens r n =>
    simp only [step] at h
    split at h
    · rename_i hr hn
      cases h
      exact .opens hr hn
    · cases h
  | reads r count =>
    simp only [step] at h
    split at h
    · rename_i hr
      cases h
      exact .reads hr rfl
    · cases h

/-! ## What every step keeps -/

/-- A job comes to be at a name made for it, to be renamed over one that is not; where either of two
jobs unlinks its name, they are not at one name at a time; and only what was not made so is removed. -/
def Apart (made : ν → Bool) (s : Replacing ν β ι ρ) : ReplaceEvent ν β ι ρ → Prop
  | .begins _ job => made job.temp = true ∧ (∀ target, job.target = some target → made target = false) ∧
    ∀ j other stage, s.jobs j = some (other, stage) → stage.Live → other.temp = job.temp →
      job.unlinks = false ∧ other.unlinks = false
  | .removes n => made n = false
  | _ => True

/-- What stands between steps: each file has one name; an open one is at the name of the job that
writes it, which is at no name that readers open; and what a reader got is what the file starts
with. -/
structure Good (made : ν → Bool) (s : Replacing ν β ι ρ) : Prop where
  named : ∀ n file, s.files.names n = some file → file < s.files.next
  one : ∀ n m file, s.files.names n = some file → s.files.names m = some file → n = m
  job : ∀ i job stage, s.jobs i = some (job, stage) → made job.temp = true ∧
    (∀ target, job.target = some target → made target = false) ∧
    (stage = .clears ∨ stage = .cleans → job.unlinks = true)
  writer : ∀ i job file rest, s.jobs i = some (job, .writes file rest) →
    s.files.names job.temp = some file ∧ s.files.contents file ++ rest = job.contents
  writers : ∀ i j a b file file' rest rest', s.jobs i = some (a, .writes file rest) →
    s.jobs j = some (b, .writes file' rest') → a.temp = b.temp → i = j
  apart : ∀ i j a b stage stage', i ≠ j → s.jobs i = some (a, stage) → s.jobs j = some (b, stage') →
    stage.Live → stage'.Live → a.temp = b.temp → a.unlinks = false ∧ b.unlinks = false
  reader : ∀ r x, s.readers r = some x → made x.name = false →
    x.file < s.files.next ∧ (∀ n, s.files.names n = some x.file → made n = false) ∧
      x.got <+: s.files.contents x.file ∧ (x.ended = true → x.got = s.files.contents x.file)

omit [DecidableEq ν] [DecidableEq ρ] in
theorem jobs_goes {i j : ι} {job : Job ν β} {stage : Stage β} :
    (s.goes i job stage).jobs j = if j = i then some (job, stage) else s.jobs j :=
  Function.update_apply ..

/-- A step leaves a job what it is: it goes on, or begins. -/
theorem Moves.of_jobs (hm : s.Moves e t) {i : ι} {job : Job ν β} {stage : Stage β}
    (hi : t.jobs i = some (job, stage)) :
    (∃ stage', s.jobs i = some (job, stage') ∧ (stage.Live → stage'.Live)) ∨
      (e = .begins i job ∧ s.jobs i = none) := by
  have hgoes : ∀ {j : ι} {other : Job ν β} {stage₁ stage₂ : Stage β}, s.jobs j = some (other, stage₁) →
      (stage₂.Live → stage₁.Live) → (s.goes j other stage₂).jobs i = some (job, stage) →
      ∃ stage', s.jobs i = some (job, stage') ∧ (stage.Live → stage'.Live) := by
    intro j other stage₁ stage₂ hj hlive hi
    rw [jobs_goes] at hi
    split_ifs at hi with hij
    · cases hi
      exact ⟨stage₁, hij ▸ hj, hlive⟩
    · exact ⟨stage, hi, id⟩
  cases hm with
  | @begins j other st hj _ =>
    rw [jobs_goes] at hi
    split_ifs at hi with hij
    · cases hi
      exact .inr ⟨by rw [hij], hij ▸ hj⟩
    · exact .inl ⟨stage, hi, id⟩
  | clears hj => exact .inl (hgoes hj (fun _ => trivial) hi)
  | creates hj _ => exact .inl (hgoes hj (fun _ => trivial) hi)
  | writes hj => exact .inl (hgoes hj (fun _ => trivial) hi)
  | fails hj hlive _ _ => exact .inl (hgoes hj (fun _ => hlive) hi)
  | placed hj _ => exact .inl (hgoes hj (fun _ => trivial) hi)
  | renamed hj _ => exact .inl (hgoes hj (fun _ => trivial) hi)
  | cleans hj => exact .inl (hgoes hj (fun _ => trivial) hi)
  | removes => exact .inl ⟨stage, hi, id⟩
  | opens _ _ => exact .inl ⟨stage, hi, id⟩
  | reads _ _ => exact .inl ⟨stage, hi, id⟩

variable {made : ν → Bool}

omit [DecidableEq ν] [DecidableEq ι] [DecidableEq ρ] in
theorem good_start {files : Files ν β} (hnamed : ∀ n file, files.names n = some file → file < files.next)
    (hone : ∀ n m file, files.names n = some file → files.names m = some file → n = m) :
    Good made (start files : Replacing ν β ι ρ) where
  named := hnamed
  one := hone
  job i job stage h := by cases h
  writer i job file rest h := by cases h
  writers i j a b file file' rest rest' h := by cases h
  apart i j a b stage stage' _ h := by cases h
  reader r x h := by cases h

omit [DecidableEq ν] [DecidableEq ρ] in
/-- A job comes to a stage, and the files to be `files`: what the other writers and the readers
have of them is as it was. -/
theorem Good.goes (h : s.Good made) {i : ι} {job : Job ν β} {stage stage' : Stage β}
    (files : Files ν β) (hi : s.jobs i = some (job, stage)) (hlive : stage.Live)
    (hunlinks : stage' = .clears ∨ stage' = .cleans → job.unlinks = true)
    (hnamed : ∀ n file, files.names n = some file → file < files.next)
    (hone : ∀ n m file, files.names n = some file → files.names m = some file → n = m)
    (hown : ∀ file rest, stage' = .writes file rest →
      files.names job.temp = some file ∧ files.contents file ++ rest = job.contents)
    (hother : ∀ j b file rest, j ≠ i → s.jobs j = some (b, .writes file rest) →
      files.names b.temp = some file ∧ files.contents file = s.files.contents file ∧
      ∀ file' rest', stage' = .writes file' rest' → b.temp ≠ job.temp)
    (hreader : ∀ r x, s.readers r = some x → made x.name = false → x.file < files.next ∧
      (∀ n, files.names n = some x.file → made n = false) ∧
      files.contents x.file = s.files.contents x.file) :
    ({ s.goes i job stage' with files } : Replacing ν β ι ρ).Good made where
  named := hnamed
  one := hone
  job j b sb hj := by
    change (s.goes i job stage').jobs j = some (b, sb) at hj
    rw [jobs_goes] at hj
    split_ifs at hj with hji
    · cases hj
      obtain ⟨htemp, htarget, -⟩ := h.job i job stage hi
      exact ⟨htemp, htarget, hunlinks⟩
    · exact h.job j b sb hj
  writer j b file rest hj := by
    change (s.goes i job stage').jobs j = some (b, .writes file rest) at hj
    rw [jobs_goes] at hj
    split_ifs at hj with hji
    · cases hj
      exact hown file rest rfl
    · obtain ⟨hname, hcontents, -⟩ := hother j b file rest hji hj
      refine ⟨hname, ?_⟩
      show files.contents file ++ rest = b.contents
      rw [hcontents]
      exact (h.writer j b file rest hj).2
  writers j k a b file file' rest rest' hj hk htemp := by
    change (s.goes i job stage').jobs j = some (a, .writes file rest) at hj
    change (s.goes i job stage').jobs k = some (b, .writes file' rest') at hk
    rw [jobs_goes] at hj hk
    split_ifs at hj hk with hji hki hki
    · exact hji.trans hki.symm
    · cases hj
      exact absurd htemp.symm ((hother k b file' rest' hki hk).2.2 _ _ rfl)
    · cases hk
      exact absurd htemp ((hother j a file rest hji hj).2.2 _ _ rfl)
    · exact h.writers j k a b _ _ _ _ hj hk htemp
  apart j k a b sa sb hjk hj hk hja hkb htemp := by
    change (s.goes i job stage').jobs j = some (a, sa) at hj
    change (s.goes i job stage').jobs k = some (b, sb) at hk
    rw [jobs_goes] at hj hk
    split_ifs at hj hk with hji hki hki
    · exact absurd (hji.trans hki.symm) hjk
    · cases hj
      subst hji
      exact h.apart j k job b _ _ hjk hi hk hlive hkb htemp
    · cases hk
      subst hki
      exact h.apart j k a job _ _ hjk hj hi hja hlive htemp
    · exact h.apart j k a b _ _ hjk hj hk hja hkb htemp
  reader r x hr hx := by
    obtain ⟨hlt, hmade, hcontents⟩ := hreader r x hr hx
    obtain ⟨-, -, hgot⟩ := h.reader r x hr hx
    refine ⟨hlt, hmade, ?_⟩
    show x.got <+: files.contents x.file ∧ (x.ended = true → x.got = files.contents x.file)
    rw [hcontents]
    exact hgot

omit [DecidableEq ι] [DecidableEq ρ] in
/-- A name that is unlinked. -/
theorem Good.names_unlink (h : s.Good made) {n : ν} :
    (∀ m file, (s.files.unlink n).names m = some file → file < s.files.next) ∧
    (∀ m k file, (s.files.unlink n).names m = some file → (s.files.unlink n).names k = some file →
      m = k) ∧
    ∀ r x, s.readers r = some x → made x.name = false → x.file < s.files.next ∧
      ∀ m, (s.files.unlink n).names m = some x.file → made m = false := by
  have hold : ∀ m file, (s.files.unlink n).names m = some file → s.files.names m = some file := by
    intro m file hm
    rw [Files.names_unlink] at hm
    split_ifs at hm
    exact hm
  refine ⟨fun m file hm => h.named m file (hold m file hm),
    fun m k file hm hk => h.one m k file (hold m file hm) (hold k file hk), fun r x hr hx => ?_⟩
  obtain ⟨hlt, hmade, -⟩ := h.reader r x hr hx
  exact ⟨hlt, fun m hm => hmade m (hold m x.file hm)⟩

omit [DecidableEq ρ] in
/-- A job that unlinks its name, where nobody else writes. -/
theorem Good.unlinks (h : s.Good made) {i : ι} {job : Job ν β} {stage stage' : Stage β}
    (hi : s.jobs i = some (job, stage)) (hstage : stage = .clears ∨ stage = .cleans)
    (hstage' : stage' = .creates ∨ stage' = .returned false) :
    ({ s.goes i job stage' with files := s.files.unlink job.temp } : Replacing ν β ι ρ).Good made := by
  have hlive : stage.Live := by rcases hstage with rfl | rfl <;> trivial
  have hunlinks := (h.job i job stage hi).2.2 hstage
  obtain ⟨hnamed, hone, hreader⟩ := h.names_unlink (n := job.temp)
  refine h.goes _ hi hlive ?_ hnamed hone ?_ (fun j b file rest hji hj => ?_)
    fun r x hr hx => ⟨(hreader r x hr hx).1, (hreader r x hr hx).2, rfl⟩
  · rcases hstage' with rfl | rfl <;> simp
  · rcases hstage' with rfl | rfl <;> simp
  · have htemp : b.temp ≠ job.temp := by
      intro he
      have := (h.apart j i b job _ _ hji hj hi trivial hlive he).2
      rw [hunlinks] at this
      cases this
    rw [Files.names_unlink, if_neg htemp]
    exact ⟨(h.writer j b file rest hj).1, rfl, fun _ _ _ => htemp⟩

omit [DecidableEq ρ] in
/-- A job makes its file, under its name, which has none. -/
theorem Good.creates (h : s.Good made) {i : ι} {job : Job ν β}
    (hi : s.jobs i = some (job, .creates)) (hfree : s.files.names job.temp = none) :
    ({ s.goes i job (.writes s.files.next job.contents) with
      files := s.files.create job.temp } : Replacing ν β ι ρ).Good made := by
  refine h.goes _ hi trivial (by simp) (fun m file hm => ?_) (fun m k file hm hk => ?_)
    (fun file rest he => ?_) (fun j b file rest hji hj => ?_) fun r x hr hx => ?_
  · rw [Files.names_create] at hm
    split_ifs at hm with hmt
    · cases hm
      exact Nat.lt_succ_self _
    · exact Nat.lt_succ_of_lt (h.named m file hm)
  · rw [Files.names_create] at hm hk
    split_ifs at hm hk with hmt hkt hkt
    · exact hmt.trans hkt.symm
    · cases hm
      exact absurd (h.named k _ hk) (lt_irrefl _)
    · cases hk
      exact absurd (h.named m _ hm) (lt_irrefl _)
    · exact h.one m k file hm hk
  · cases he
    simp [Files.names_create, Files.contents_create]
  · have hname := (h.writer j b file rest hj).1
    have htemp : b.temp ≠ job.temp := by
      intro he
      rw [he, hfree] at hname
      cases hname
    have hfile : file ≠ s.files.next := (h.named _ _ hname).ne
    rw [Files.names_create, if_neg htemp, Files.contents_create, if_neg hfile]
    exact ⟨hname, rfl, fun _ _ _ => htemp⟩
  · obtain ⟨hlt, hmade, -⟩ := h.reader r x hr hx
    refine ⟨Nat.lt_succ_of_lt hlt, fun m hm => ?_, ?_⟩
    · rw [Files.names_create] at hm
      split_ifs at hm
      · exact absurd (Option.some.inj hm) hlt.ne'
      · exact hmade m hm
    · rw [Files.contents_create, if_neg hlt.ne]

omit [DecidableEq ν] [DecidableEq ρ] in
/-- A file that is written to is open for its writer alone, and no reader has it. -/
theorem Good.writes (h : s.Good made) {i : ι} {job : Job ν β} {file : Nat} {rest : List β}
    {count : Nat} (hi : s.jobs i = some (job, .writes file rest)) :
    ({ s.goes i job (.writes file (rest.drop count)) with
      files := s.files.append file (rest.take count) } : Replacing ν β ι ρ).Good made := by
  obtain ⟨hname, hcontents⟩ := h.writer i job file rest hi
  refine h.goes _ hi trivial (by simp) h.named h.one (fun k rest' he => ?_)
    (fun j b k rest' hji hj => ?_) fun r x hr hx => ?_
  · cases he
    refine ⟨hname, ?_⟩
    rw [Files.contents_append, if_pos rfl, List.append_assoc, List.take_append_drop, hcontents]
  · have htemp : b.temp ≠ job.temp := fun he => hji (h.writers j i b job _ _ _ _ hj hi he)
    have hk := (h.writer j b k rest' hj).1
    have hfile : k ≠ file := by
      rintro rfl
      exact htemp (h.one _ _ k hk hname)
    rw [Files.contents_append, if_neg hfile]
    exact ⟨hk, rfl, fun _ _ _ => htemp⟩
  · obtain ⟨hlt, hmade, -⟩ := h.reader r x hr hx
    have hfile : x.file ≠ file := by
      rintro rfl
      have := hmade job.temp hname
      rw [(h.job i job _ hi).1] at this
      cases this
    rw [Files.contents_append, if_neg hfile]
    exact ⟨hlt, hmade, rfl⟩

omit [DecidableEq ρ] in
/-- A file all of whose contents are written is renamed over a name that was not made for a job. -/
theorem Good.renames (h : s.Good made) {i : ι} {job : Job ν β} {file : Nat} {target : ν}
    (hi : s.jobs i = some (job, .writes file [])) (htarget : job.target = some target) :
    ({ s.goes i job (.returned true) with
      files := s.files.rename job.temp target } : Replacing ν β ι ρ).Good made := by
  obtain ⟨hname, hcontents⟩ := h.writer i job file [] hi
  obtain ⟨htemp, hmade, -⟩ := h.job i job _ hi
  have hnot : made target = false := hmade target htarget
  -- what has a name had one before: the same, or the job's
  have hold : ∀ m k, (s.files.rename job.temp target).names m = some k →
      (m = target ∧ k = file) ∨ (m ≠ target ∧ m ≠ job.temp ∧ s.files.names m = some k) := by
    intro m k hm
    rw [Files.names_rename, hname] at hm
    split_ifs at hm with hmt hmj
    · exact .inl ⟨hmt, (Option.some.inj hm).symm⟩
    · exact .inr ⟨hmt, hmj, hm⟩
  refine h.goes _ hi trivial (by simp) (fun m k hm => ?_) (fun m n k hm hn => ?_) (by simp)
    (fun j b k rest hji hj => ?_) fun r x hr hx => ?_
  · rcases hold m k hm with ⟨-, rfl⟩ | ⟨-, -, hm⟩
    · exact h.named _ _ hname
    · exact h.named m k hm
  · rcases hold m k hm with ⟨hmt, hk⟩ | ⟨-, hmj, hm'⟩
    · rcases hold n k hn with ⟨hnt, -⟩ | ⟨-, hnj, hn'⟩
      · exact hmt.trans hnt.symm
      · exact absurd (h.one n job.temp k hn' (hk ▸ hname)) hnj
    · rcases hold n k hn with ⟨-, hk⟩ | ⟨-, -, hn'⟩
      · exact absurd (h.one m job.temp k hm' (hk ▸ hname)) hmj
      · exact h.one m n k hm' hn'
  · have hbtemp : b.temp ≠ job.temp := fun he => hji (h.writers j i b job _ _ _ _ hj hi he)
    have hbtarget : b.temp ≠ target := by
      intro he
      have := (h.job j b _ hj).1
      rw [he, hnot] at this
      cases this
    rw [Files.names_rename, if_neg hbtarget, if_neg hbtemp]
    exact ⟨(h.writer j b k rest hj).1, rfl, by simp⟩
  · obtain ⟨hlt, hsealed, -⟩ := h.reader r x hr hx
    refine ⟨hlt, fun m hm => ?_, rfl⟩
    rcases hold m x.file hm with ⟨rfl, -⟩ | ⟨-, -, hm⟩
    · exact hnot
    · exact hsealed m hm

theorem Good.step (h : s.Good made) (ha : s.Apart made e) (hm : s.Moves e t) : t.Good made := by
  cases hm with
  | @begins i job stage hi hstage =>
    obtain ⟨htemp, htarget, hapart⟩ := ha
    have hwrites : ∀ file rest, stage ≠ .writes file rest := by
      rcases hstage with ⟨rfl, -⟩ | rfl <;> simp
    refine ⟨h.named, h.one, fun j b sb hj => ?_, fun j b file rest hj => ?_,
      fun j k a b file file' rest rest' hj hk heq => ?_,
      fun j k a b sa sb hjk hj hk hja hkb heq => ?_, h.reader⟩
    · rw [jobs_goes] at hj
      split_ifs at hj with hji
      · cases hj
        refine ⟨htemp, htarget, fun hs => ?_⟩
        rcases hstage with ⟨rfl, hc⟩ | rfl
        · simp [Job.unlinks, hc]
        · simp at hs
      · exact h.job j b sb hj
    · rw [jobs_goes] at hj
      split_ifs at hj with hji
      · cases hj
        exact absurd rfl (hwrites _ _)
      · exact h.writer j b file rest hj
    · rw [jobs_goes] at hj hk
      split_ifs at hj hk with hji hki hki
      · exact hji.trans hki.symm
      · cases hj
        exact absurd rfl (hwrites _ _)
      · cases hk
        exact absurd rfl (hwrites _ _)
      · exact h.writers j k a b _ _ _ _ hj hk heq
    · rw [jobs_goes] at hj hk
      split_ifs at hj hk with hji hki hki
      · exact absurd (hji.trans hki.symm) hjk
      · cases hj
        exact hapart k b _ hk hkb heq.symm
      · cases hk
        exact (hapart j a _ hj hja heq).symm
      · exact h.apart j k a b _ _ hjk hj hk hja hkb heq
  | clears hi => exact h.unlinks hi (.inl rfl) (.inl rfl)
  | creates hi hfree => exact h.creates hi hfree
  | writes hi => exact h.writes hi
  | @fails e i job stage stage' hi hlive hnext _ =>
    refine h.goes s.files hi hlive (fun hs => ?_) h.named h.one (fun file rest he => ?_)
      (fun j b file rest _ hj => ⟨(h.writer j b file rest hj).1, rfl, fun file' rest' he => ?_⟩)
      fun r x hr hx => ⟨(h.reader r x hr hx).1, (h.reader r x hr hx).2.1, rfl⟩
    · rcases hnext with ⟨rfl, hc⟩ | rfl
      · simp [Job.unlinks, hc]
      · simp at hs
    · rcases hnext with ⟨rfl, -⟩ | rfl <;> cases he
    · rcases hnext with ⟨rfl, -⟩ | rfl <;> cases he
  | placed hi _ =>
    exact h.goes s.files hi trivial (by simp) h.named h.one (by simp)
      (fun j b file rest _ hj => ⟨(h.writer j b file rest hj).1, rfl, by simp⟩)
      fun r x hr hx => ⟨(h.reader r x hr hx).1, (h.reader r x hr hx).2.1, rfl⟩
  | renamed hi htarget => exact h.renames hi htarget
  | cleans hi => exact h.unlinks hi (.inr rfl) (.inr rfl)
  | @removes n =>
    obtain ⟨hnamed, hone, hreader⟩ := h.names_unlink (n := n)
    refine ⟨hnamed, hone, h.job, fun i job file rest hi => ?_, h.writers, h.apart, fun r x hr hx => ?_⟩
    · obtain ⟨hname, hcontents⟩ := h.writer i job file rest hi
      have htemp : job.temp ≠ n := by
        intro he
        have := (h.job i job _ hi).1
        rw [he, show made n = false from ha] at this
        cases this
      refine ⟨?_, hcontents⟩
      show (s.files.unlink n).names job.temp = some file
      rw [Files.names_unlink, if_neg htemp, hname]
    · obtain ⟨-, -, hgot⟩ := h.reader r x hr hx
      exact ⟨(hreader r x hr hx).1, (hreader r x hr hx).2, hgot⟩
  | @opens r n file hr hn =>
    refine ⟨h.named, h.one, h.job, h.writer, h.writers, h.apart, fun r' x hr' hx => ?_⟩
    change Function.update s.readers r _ r' = some x at hr'
    rw [Function.update_apply] at hr'
    split_ifs at hr' with heq
    · cases hr'
      refine ⟨h.named n file hn, fun m hm => ?_, List.nil_prefix, by simp⟩
      obtain rfl := h.one n m file hn hm
      exact hx
    · exact h.reader r' x hr' hx
  | @reads r n file got count items hr hitems =>
    refine ⟨h.named, h.one, h.job, h.writer, h.writers, h.apart, fun r' x hr' hx => ?_⟩
    change Function.update s.readers r _ r' = some x at hr'
    rw [Function.update_apply] at hr'
    split_ifs at hr' with heq
    · cases hr'
      obtain ⟨hlt, hsealed, hgot, -⟩ := h.reader r _ hr hx
      obtain ⟨rest, hrest⟩ := hgot
      have hdrop : items = rest.take (count + 1) := by
        rw [hitems, ← hrest, List.drop_left]
      refine ⟨hlt, hsealed, ?_, fun hend => ?_⟩
      · show got ++ items <+: s.files.contents file
        rw [← hrest, hdrop]
        exact (List.prefix_append_right_inj got).mpr (List.take_prefix _ _)
      · show got ++ items = s.files.contents file
        have hnil : items = [] := List.isEmpty_iff.mp hend
        rw [hnil] at hdrop
        have hrestnil : rest = [] := by
          cases rest with
          | nil => rfl
          | cons x xs => simp at hdrop
        rw [← hrest, hnil, hrestnil]
    · exact h.reader r' x hr' hx

theorem good_of_run {u : Replacing ν β ι ρ} {es : List (ReplaceEvent ν β ι ρ)} (h : s.Good made)
    (hapart : Along step (Apart made) s es) (hrun : run step s es = some u) : u.Good made :=
  run_along (P := fun s => s.Good made) (fun _ _ _ hs ha hstep => hs.step ha (moves_of_step hstep))
    h hapart hrun

/-! ## A register -/

/-- Reader `r` has a file that nobody writes to, which holds `contents`. -/
def Holds (s : Replacing ν β ι ρ) (made : ν → Bool) (r : ρ) (n : ν) (contents : List β) : Prop :=
  ∃ x, s.readers r = some x ∧ x.name = n ∧ made n = false ∧ s.files.contents x.file = contents

theorem Holds.step {r : ρ} {n : ν} {contents : List β} (hr : s.Holds made r n contents)
    (h : s.Good made) (hm : s.Moves e t) : t.Holds made r n contents := by
  obtain ⟨x, hx, hname, hn, hcontents⟩ := hr
  obtain ⟨hlt, hsealed, -⟩ := h.reader r x hx (hname ▸ hn)
  cases hm with
  | begins _ _ => exact ⟨x, hx, hname, hn, hcontents⟩
  | fails _ _ _ _ => exact ⟨x, hx, hname, hn, hcontents⟩
  | placed _ _ => exact ⟨x, hx, hname, hn, hcontents⟩
  | clears _ => exact ⟨x, hx, hname, hn, hcontents⟩
  | cleans _ => exact ⟨x, hx, hname, hn, hcontents⟩
  | renamed _ _ => exact ⟨x, hx, hname, hn, hcontents⟩
  | removes => exact ⟨x, hx, hname, hn, hcontents⟩
  | @creates i job _ _ =>
    refine ⟨x, hx, hname, hn, ?_⟩
    show (s.files.create job.temp).contents x.file = contents
    rw [Files.contents_create, if_neg hlt.ne, hcontents]
  | @writes i job file rest count hi =>
    refine ⟨x, hx, hname, hn, ?_⟩
    have hfile : x.file ≠ file := by
      rintro rfl
      have := hsealed job.temp (h.writer i job _ rest hi).1
      rw [(h.job i job _ hi).1] at this
      cases this
    show (s.files.append file (rest.take count)).contents x.file = contents
    rw [Files.contents_append, if_neg hfile, hcontents]
  | @opens r' m file hr' _ =>
    have hne : r ≠ r' := by
      rintro rfl
      rw [hx] at hr'
      cases hr'
    exact ⟨x, (Function.update_of_ne hne _ _).trans hx, hname, hn, hcontents⟩
  | @reads r' m file got count items hr' _ =>
    by_cases heq : r = r'
    · subst heq
      rw [hx] at hr'
      cases hr'
      exact ⟨_, Function.update_self .., hname, hn, hcontents⟩
    · exact ⟨x, (Function.update_of_ne heq _ _).trans hx, hname, hn, hcontents⟩

/-- Job `i` writes the file at `n`, or has made it. -/
def At (s : Replacing ν β ι ρ) (n : ν) (i : ι) : Prop :=
  ∃ job stage, s.jobs i = some (job, stage) ∧ job.temp = n ∧
    (stage = .returned true ∨ ∃ file rest, stage = .writes file rest)

/-- A job that begins at `n` makes its file in place. -/
def InPlace (n : ν) (e : ReplaceEvent ν β ι ρ) : Prop :=
  ∀ i job, e = .begins i job → job.temp = n → job.target = none ∧ job.unlinks = false

/-- What stands of a name where files are only made in place: at most one job has made its file, and
none where there was one. -/
structure Placed (s : Replacing ν β ι ρ) (n : ν) (held : Option (List β)) : Prop where
  inPlace : ∀ i job stage, s.jobs i = some (job, stage) → job.temp = n →
    job.target = none ∧ job.unlinks = false
  named : ∀ i, s.At n i → s.files.names n ≠ none
  one : ∀ i j, s.At n i → s.At n j → i = j
  whole : ∀ i job, s.jobs i = some (job, .returned true) → job.temp = n →
    s.files.lookup n = some job.contents
  held : ∀ contents, held = some contents →
    s.files.lookup n = some contents ∧ ∀ i, ¬s.At n i

omit [DecidableEq ν] [DecidableEq ρ] in
/-- A job comes to a stage in which it has made nothing at `n`, and what `n` holds is as it was. -/
theorem Placed.goes {n : ν} {held : Option (List β)} (h : s.Placed n held) {i : ι} {job : Job ν β}
    {stage : Stage β} (files : Files ν β)
    (hi : job.temp = n → (job.target = none ∧ job.unlinks = false) ∧
      stage ≠ .returned true ∧ ∀ file rest, stage ≠ .writes file rest)
    (hnames : files.names n = s.files.names n) (hlookup : files.lookup n = s.files.lookup n) :
    ({ s.goes i job stage with files } : Replacing ν β ι ρ).Placed n held := by
  have hold : ∀ j, ({ s.goes i job stage with files } : Replacing ν β ι ρ).At n j → s.At n j := by
    rintro j ⟨b, sb, hj, hb, hsb⟩
    change (s.goes i job stage).jobs j = some (b, sb) at hj
    rw [jobs_goes] at hj
    split_ifs at hj
    · cases hj
      obtain ⟨-, hreturned, hwrites⟩ := hi hb
      rcases hsb with hsb | ⟨file, rest, hsb⟩
      · exact absurd hsb hreturned
      · exact absurd hsb (hwrites file rest)
    · exact ⟨b, sb, hj, hb, hsb⟩
  refine ⟨fun j b sb hj hb => ?_, fun j hj => ?_, fun j k hj hk => h.one j k (hold j hj) (hold k hk),
    fun j b hj hb => ?_, fun contents hc => ?_⟩
  · change (s.goes i job stage).jobs j = some (b, sb) at hj
    rw [jobs_goes] at hj
    split_ifs at hj
    · cases hj
      exact (hi hb).1
    · exact h.inPlace j b sb hj hb
  · show files.names n ≠ none
    rw [hnames]
    exact h.named j (hold j hj)
  · change (s.goes i job stage).jobs j = some (b, .returned true) at hj
    rw [jobs_goes] at hj
    show files.lookup n = some b.contents
    split_ifs at hj
    · cases hj
      exact absurd rfl (hi hb).2.1
    · rw [hlookup]
      exact h.whole j b hj hb
  · show files.lookup n = some contents ∧ _
    rw [hlookup]
    exact ⟨(h.held contents hc).1, fun j hj => (h.held contents hc).2 j (hold j hj)⟩

omit [DecidableEq ν] [DecidableEq ρ] in
/-- The one job that makes the file at `n` goes on. -/
theorem Placed.makes {n : ν} {held : Option (List β)} (h : s.Placed n held) {i : ι} {job : Job ν β}
    {stage stage' : Stage β} (files : Files ν β) (hi : s.jobs i = some (job, stage))
    (htemp : job.temp = n) (honly : ∀ j, s.At n j → j = i) (hnames : files.names n ≠ none)
    (hheld : held = none)
    (hwhole : stage' = .returned true → files.lookup n = some job.contents) :
    ({ s.goes i job stage' with files } : Replacing ν β ι ρ).Placed n held := by
  have hhere : ∀ j, ({ s.goes i job stage' with files } : Replacing ν β ι ρ).At n j → j = i := by
    rintro j ⟨b, sb, hj, hb, hsb⟩
    change (s.goes i job stage').jobs j = some (b, sb) at hj
    rw [jobs_goes] at hj
    split_ifs at hj with hji
    · exact hji
    · exact honly j ⟨b, sb, hj, hb, hsb⟩
  refine ⟨fun j b sb hj hb => ?_, fun _ _ => hnames, fun j k hj hk => (hhere j hj).trans (hhere k hk).symm,
    fun j b hj hb => ?_, fun contents hc => by rw [hheld] at hc; cases hc⟩
  · change (s.goes i job stage').jobs j = some (b, sb) at hj
    rw [jobs_goes] at hj
    split_ifs at hj
    · cases hj
      exact h.inPlace i _ _ hi htemp
    · exact h.inPlace j b sb hj hb
  · have hji := hhere j ⟨b, _, hj, hb, .inl rfl⟩
    change (s.goes i job stage').jobs j = some (b, .returned true) at hj
    rw [jobs_goes, if_pos hji] at hj
    obtain ⟨rfl, hs⟩ := Prod.mk.inj (Option.some.inj hj)
    exact hwhole hs

theorem Placed.step {n : ν} {held : Option (List β)} (h : s.Placed n held) (hg : s.Good made)
    (hn : made n = true) (ha : s.Apart made e) (hin : InPlace n e) (hm : s.Moves e t) :
    t.Placed n held := by
  have hsame : ∀ {f : Files ν β} {m : ν}, n ≠ m → (f.unlink m).names n = f.names n := fun hne => by
    rw [Files.names_unlink, if_neg hne]
  -- a job that unlinks its name is not at `n`
  have haway : ∀ {i : ι} {job : Job ν β} {stage : Stage β}, s.jobs i = some (job, stage) →
      stage = .clears ∨ stage = .cleans → n ≠ job.temp := by
    rintro i job stage hi hstage rfl
    have hunlinks := (hg.job i job stage hi).2.2 hstage
    rw [(h.inPlace i job stage hi rfl).2] at hunlinks
    cases hunlinks
  -- where a job is at `n`, there was no file at the start
  have hnone : ∀ {i : ι}, s.At n i → held = none := by
    intro i hat
    cases hc : held with
    | none => rfl
    | some contents => exact absurd hat ((h.held contents hc).2 i)
  cases hm with
  | @begins i job stage _ hstage =>
    refine h.goes s.files (fun htemp => ⟨hin i job rfl htemp, ?_⟩) rfl rfl
    rcases hstage with ⟨rfl, -⟩ | rfl <;> simp
  | @clears i job hi =>
    have hne := haway hi (.inl rfl)
    exact h.goes _ (fun htemp => absurd htemp.symm hne) (hsame hne) (Files.lookup_unlink_of_ne hne)
  | @cleans i job hi =>
    have hne := haway hi (.inr rfl)
    exact h.goes _ (fun htemp => absurd htemp.symm hne) (hsame hne) (Files.lookup_unlink_of_ne hne)
  | @fails e i job stage stage' hi _ hnext _ =>
    refine h.goes s.files (fun htemp => ⟨h.inPlace i job stage hi htemp, ?_⟩) rfl rfl
    rcases hnext with ⟨rfl, -⟩ | rfl <;> simp
  | @creates i job hi hfree =>
    by_cases htemp : job.temp = n
    · subst htemp
      refine h.makes _ hi rfl (fun j hj => absurd hfree (h.named j hj)) ?_ ?_ (by simp)
      · rw [Files.names_create, if_pos rfl]
        simp
      · cases hc : held with
        | none => rfl
        | some contents =>
          have hlookup := (h.held contents hc).1
          rw [Files.lookup, hfree] at hlookup
          cases hlookup
    · have hne : n ≠ job.temp := fun he => htemp he.symm
      refine h.goes _ (fun he => absurd he htemp) ?_ (Files.lookup_create_of_ne hne (hg.named n))
      rw [Files.names_create, if_neg hne]
  | @writes i job file rest count hi =>
    by_cases htemp : job.temp = n
    · have hat : s.At n i := ⟨job, _, hi, htemp, .inr ⟨file, rest, rfl⟩⟩
      exact h.makes (s.files.append file (rest.take count)) hi htemp
        (fun j hj => h.one j i hj hat) (h.named i hat) (hnone hat) (by simp)
    · refine h.goes (s.files.append file (rest.take count)) (fun he => absurd he htemp) rfl
        (Files.lookup_append_of_ne fun hname => ?_)
      exact htemp (hg.one job.temp n file (hg.writer i job file rest hi).1 hname)
  | @placed i job file hi _ =>
    by_cases htemp : job.temp = n
    · have hat : s.At n i := ⟨job, _, hi, htemp, .inr ⟨file, [], rfl⟩⟩
      obtain ⟨hname, hcontents⟩ := hg.writer i job file [] hi
      refine h.makes s.files hi htemp (fun j hj => h.one j i hj hat) (h.named i hat)
        (hnone hat) fun _ => ?_
      rw [Files.lookup, ← htemp, hname, ← hcontents, List.append_nil]
      rfl
    · exact h.goes s.files (fun he => absurd he htemp) rfl rfl
  | @renamed i job file target hi htarget =>
    have htemp : n ≠ job.temp := by
      rintro rfl
      rw [(h.inPlace i job _ hi rfl).1] at htarget
      cases htarget
    have hne : n ≠ target := by
      rintro rfl
      rw [(hg.job i job _ hi).2.1 n htarget] at hn
      cases hn
    refine h.goes _ (fun he => absurd he.symm htemp) ?_ (Files.lookup_rename_of_ne hne htemp)
    rw [Files.names_rename, if_neg hne, if_neg htemp]
  | @removes m =>
    have hne : n ≠ m := by
      rintro rfl
      rw [show made n = false from ha] at hn
      cases hn
    have hlookup := Files.lookup_unlink_of_ne (f := s.files) hne
    refine ⟨h.inPlace, fun i hi => ?_, h.one, fun i job hi hb => ?_, fun contents hc => ?_⟩
    · show (s.files.unlink m).names n ≠ none
      rw [hsame hne]
      exact h.named i hi
    · exact hlookup.trans (h.whole i job hi hb)
    · exact ⟨hlookup.trans (h.held contents hc).1, (h.held contents hc).2⟩
  | opens _ _ => exact ⟨h.inPlace, h.named, h.one, h.whole, h.held⟩
  | reads _ _ => exact ⟨h.inPlace, h.named, h.one, h.whole, h.held⟩

/-- **A file made in place is kept.** Where jobs at a name only make its file in place, a file that
is there at the start stays, and else at most one job returns with its file made, which stays. -/
theorem kept_in_place {files : Files ν β} {u : Replacing ν β ι ρ} {n : ν}
    {es : List (ReplaceEvent ν β ι ρ)} (h : (start files : Replacing ν β ι ρ).Good made)
    (hn : made n = true)
    (hapart : Along step (fun u e => u.Apart made e ∧ InPlace n e) (start files) es)
    (hrun : run step (start files) es = some u) : u.Placed n (files.lookup n) := by
  have hplaced : (start files : Replacing ν β ι ρ).Placed n (files.lookup n) := by
    have hnobody : ∀ i, ¬(start files : Replacing ν β ι ρ).At n i := by
      rintro i ⟨job, stage, hi, -⟩
      cases hi
    refine ⟨fun i job stage hi _ => ?_, fun i hi => absurd hi (hnobody i),
      fun i j hi => absurd hi (hnobody i), fun i job hi _ => ?_, fun contents hc => ⟨hc, hnobody⟩⟩
    · cases hi
    · cases hi
  exact (run_along (P := fun s => s.Good made ∧ s.Placed n (files.lookup n))
    (fun _ _ _ hs ha hstep => ⟨hs.1.step ha.1 (moves_of_step hstep),
      hs.2.step hs.1 hn ha.1 ha.2 (moves_of_step hstep)⟩)
    ⟨h, hplaced⟩ hapart hrun).2

end Replacing

end Wires
