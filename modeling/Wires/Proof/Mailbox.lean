import Mathlib.Data.Fintype.Option
import Wires.Impl.Mailbox
import Wires.Proof.Delivery

/-!
# What a mailbox delivers

Stores and readers share a mailbox with nothing locked. What a store reports is
in the mailbox until a reader's pruning removes it, and nothing leaves `new/`
but to a reader or by an eviction that its store leaves a note of
(`delivered_once`). That a reader is handed a message once only is so in the
runs whose steps are all `Orderly`: the look of a store and its write are two
steps, and between them a reader can take what another store of the same
message wrote; and a reader prunes by the sender's clock, so it can forget a
message that was only just read.
-/

namespace Wires

namespace Mailbox

variable {b b' : Mailbox} {id x : PushId} {m : PushMessage}

theorem holds_iff : b.holds id = true ↔ id ∈ b.unread.keys ∨ id ∈ b.read.keys := by
  rw [holds, Bool.or_eq_true, SortedMap.containsKey_iff, SortedMap.containsKey_iff]

theorem markRead_eq_some (h : b.markRead id = some b') :
    id ∈ b.unread.keys ∧ (∀ x, x ∈ b'.unread.keys ↔ x ≠ id ∧ x ∈ b.unread.keys) ∧
      (∀ x, x ∈ b'.read.keys ↔ x = id ∨ x ∈ b.read.keys) ∧ b'.notes = b.notes := by
  obtain ⟨m, hm, rfl⟩ := Option.map_eq_some_iff.mp h
  refine ⟨?_, fun _ => SortedMap.mem_keys_erase, fun _ => SortedMap.mem_keys_insert, rfl⟩
  rw [← SortedMap.containsKey_iff, SortedMap.containsKey, hm]
  rfl

theorem holds_markRead (h : b.markRead id = some b') : b'.holds x = b.holds x := by
  obtain ⟨hid, hunread, hread, -⟩ := markRead_eq_some h
  rw [Bool.eq_iff_iff, holds_iff, holds_iff, hunread, hread]
  by_cases hx : x = id
  · simp [hx, hid]
  · simp [hx]

theorem holds_put : (b.put m).holds x = true ↔ x = m.id ∨ b.holds x = true := by
  rw [holds_iff, holds_iff, put, SortedMap.mem_keys_insert, or_assoc]

theorem holds_forget : (b.forget id).holds x = true ↔ x ∈ b.unread.keys ∨ x ≠ id ∧ x ∈ b.read.keys := by
  rw [holds_iff, forget, SortedMap.mem_keys_erase]

end Mailbox

/-! ## One step -/

/-- The account a store keeps, at each of its stages. -/
def MailboxTask.account : MailboxTask → Option Stored
  | .checks _ out | .checksRead _ _ out | .writes _ _ out | .lists out | .loads _ _ out
  | .evicts _ out | .leavesNote out | .stored out => some out
  | _ => none

/-- The message a store is in the middle of storing. -/
def MailboxTask.current : MailboxTask → Option PushId
  | .checksRead m _ _ | .writes m _ _ => some m.id
  | _ => none

/-- The messages a store has not looked for yet. -/
def MailboxTask.left : MailboxTask → List PushMessage
  | .checks todo _ | .checksRead _ todo _ | .writes _ todo _ => todo
  | _ => []

/-- How many messages a task evicted. -/
def MailboxTask.evictions (task : MailboxTask) : Nat := (task.account.map (·.evicted)).getD 0

/-- A store that has not come to its evictions counts none. -/
def MailboxTask.Counts : MailboxTask → Prop
  | .checks _ out | .checksRead _ _ out | .writes _ _ out | .lists out | .loads _ _ out =>
    out.evicted = 0
  | _ => True

/-- The message a store found in neither directory and is about to write. -/
def MailboxTask.Writes (id : PushId) : MailboxTask → Prop
  | .writes m _ _ => m.id = id
  | _ => False

/-- The id a reader was handed. -/
def MailFact.handed? {ι : Type} : MailFact ι → Option PushId
  | .handed id => some id
  | _ => none

/-- What a note tells. -/
def MailFact.noted? {ι : Type} : MailFact ι → Option Nat
  | .noted _ n => some n
  | _ => none

/-- Whether it is an eviction by `i`. -/
def MailFact.isEvictionBy {ι : Type} [DecidableEq ι] (i : ι) : MailFact ι → Bool
  | .evicted j _ => j = i
  | _ => false

namespace Mailing

variable {ι : Type} [DecidableEq ι] {s s' s₀ : Mailing ι} {i : ι} {e : MailboxEvent ι}
  {facts : List (MailFact ι)} {task : MailboxTask} {id : PushId}

/-- The ids readers were handed, the last one first. -/
def handed (s : Mailing ι) : List PushId := s.log.filterMap MailFact.handed?

/-- The last `MAX_READ` of them. -/
def recent (s : Mailing ι) : List PushId := s.handed.take MAX_READ

/-- How many messages task `i` evicted. -/
def evictedBy (s : Mailing ι) (i : ι) : Nat := s.log.countP (MailFact.isEvictionBy i)

/-- What a step of task `i` does to the files. -/
inductive Files (s : Mailing ι) (i : ι) : Mailbox → List (MailFact ι) → Prop
  | keeps : Files s i s.box []
  | puts {m todo out} : s.tasks i = .writes m todo out → Files s i (s.box.put m) []
  | evicts {id box} : s.box.markRead id = some box → Files s i box [.evicted i id]
  | notes {n} : Files s i (s.box.leaveNote n) [.noted i n]
  | hands {m todo taken box} : s.tasks i = .takes (m :: todo) taken →
    s.box.markRead m.id = some box → Files s i box [.handed m.id]
  | prunes {m todo taken} : s.tasks i = .prunes (m :: todo) taken →
    Files s i (s.box.forget m.id) [.pruned m.id]

/-- What a step of task `i` makes of its stage. -/
structure Progress (s : Mailing ι) (i : ι) (box : Mailbox) (facts : List (MailFact ι))
    (task : MailboxTask) : Prop where
  stays : ∀ out', (s.tasks i).account = some out' → ∃ out, task.account = some out
  /-- A store's ids are those of the messages it looked for, one after the other. -/
  ids : ∀ out, task.account = some out → ∃ out', (s.tasks i).account = some out' ∧
    out.ids ++ task.left.map (·.id) = out'.ids ++ (s.tasks i).left.map (·.id)
  /-- One that is not being looked for any longer is held, or was not before. -/
  settled : ∀ out, task.account = some out → ∀ id ∈ out.ids, task.current = some id ∨
    box.holds id = true ∨ ∃ out', (s.tasks i).account = some out' ∧ id ∈ out'.ids ∧
      (s.tasks i).current ≠ some id
  counts : (s.tasks i).Counts → task.Counts
  evictions : task.evictions = (s.tasks i).evictions + facts.countP (MailFact.isEvictionBy i)
  /-- A store that evicted something leaves its note last. -/
  noted : (s.tasks i).Counts → ∀ out, task = .stored out → out.evicted ≠ 0 →
    .noted i out.evicted ∈ facts
  /-- It writes what it did not find. -/
  unheld : ∀ id, task.Writes id → id ∉ s.box.read.keys ∧ box = s.box ∧ facts = []

/-- A step that only reads, and looks for no message. -/
theorem Progress.reads {old : MailboxTask} (hi : s.tasks i = old)
    (haccount : task.account = old.account) (hleft : task.left = old.left)
    (hcurrent : old.current = none) (hcounts : old.Counts → task.Counts)
    (hwrites : ∀ id, ¬task.Writes id)
    (hstored : old.Counts → ∀ out, task = .stored out → out.evicted = 0) :
    Progress s i s.box [] task where
  stays := fun out hout => ⟨out, by rw [haccount, ← hi, hout]⟩
  ids := fun out hout => ⟨out, by rw [hi, ← haccount, hout], by rw [hi, hleft]⟩
  settled := fun out hout id hid => by
    refine .inr (.inr ⟨out, by rw [hi, ← haccount, hout], hid, ?_⟩)
    rw [hi, hcurrent]
    nofun
  counts := hi ▸ hcounts
  evictions := by rw [hi, MailboxTask.evictions, MailboxTask.evictions, haccount]; rfl
  noted := fun hold out hout hne => absurd (hstored (hi ▸ hold) out hout) hne
  unheld := fun id hid => absurd hid (hwrites id)

/-- A step that moves a message, evicts none and looks for none. -/
theorem Progress.moves {old : MailboxTask} {box : Mailbox} (hi : s.tasks i = old)
    (hold : old.account = none) (haccount : task.account = none) (hcounts : task.Counts)
    (hwrites : ∀ id, ¬task.Writes id) (hfacts : facts.countP (MailFact.isEvictionBy i) = 0) :
    Progress s i box facts task where
  stays := fun out hout => by
    rw [hi, hold] at hout
    cases hout
  ids := fun out hout => by
    rw [haccount] at hout
    cases hout
  settled := fun out hout => by
    rw [haccount] at hout
    cases hout
  counts := fun _ => hcounts
  evictions := by rw [hi, MailboxTask.evictions, MailboxTask.evictions, haccount, hold, hfacts]; rfl
  noted := fun _ out hout => by
    rw [hout] at haccount
    cases haccount
  unheld := fun id hid => absurd hid (hwrites id)

/-- The account of one message of a store's. -/
theorem Progress.looks {old : MailboxTask} {out out' : Stored} {box : Mailbox}
    (hi : s.tasks i = old) (haccount : task.account = some out) (hold : old.account = some out')
    (hids : out.ids ++ task.left.map (·.id) = out'.ids ++ old.left.map (·.id))
    (hsettled : ∀ id ∈ out.ids, task.current = some id ∨ box.holds id = true ∨
      id ∈ out'.ids ∧ old.current ≠ some id)
    (hcounts : old.Counts → task.Counts) (hevicted : out.evicted = out'.evicted)
    (hstored : ∀ out, task ≠ .stored out)
    (hunheld : ∀ id, task.Writes id → id ∉ s.box.read.keys ∧ box = s.box) :
    Progress s i box [] task where
  stays := fun _ _ => ⟨out, haccount⟩
  ids := fun out₁ hout => by
    obtain rfl := Option.some.inj (haccount.symm.trans hout)
    exact ⟨out', hi ▸ hold, by rw [hi, hids]⟩
  settled := fun out₁ hout id hid => by
    obtain rfl := Option.some.inj (haccount.symm.trans hout)
    rcases hsettled id hid with h | h | h
    · exact .inl h
    · exact .inr (.inl h)
    · exact .inr (.inr ⟨out', hi ▸ hold, hi ▸ h⟩)
  counts := hi ▸ hcounts
  evictions := by
    rw [hi, MailboxTask.evictions, MailboxTask.evictions, haccount, hold, Option.map_some,
      Option.map_some, hevicted]
    rfl
  noted := fun _ out₁ hout => absurd hout (hstored out₁)
  unheld := fun id hid => ⟨(hunheld id hid).1, (hunheld id hid).2, rfl⟩

theorem reads_did {old : MailboxTask} (hi : s.tasks i = old)
    (haccount : task.account = old.account) (hleft : task.left = old.left)
    (hcurrent : old.current = none) (hcounts : old.Counts → task.Counts)
    (hwrites : ∀ id, ¬task.Writes id)
    (hstored : old.Counts → ∀ out, task = .stored out → out.evicted = 0) :
    ∃ box facts task', s.comes i task = s.does i box facts task' ∧ Files s i box facts ∧
      Progress s i box facts task' :=
  ⟨s.box, [], task, rfl, .keeps, .reads hi haccount hleft hcurrent hcounts hwrites hstored⟩

/-- What a task's next operation does. -/
theorem goOn_did (h : s.goOn i = some s') : ∃ box facts task,
    s' = s.does i box facts task ∧ Files s i box facts ∧ Progress s i box facts task := by
  unfold goOn at h
  split at h
  · cases h
  · rename_i out hi
    cases h
    refine ⟨_, _, _, rfl, .keeps, ?_⟩
    split_ifs
    · exact .reads hi rfl rfl rfl (fun h => h) nofun nofun
    · refine .reads hi rfl rfl rfl (fun _ => trivial) nofun fun hold out' hout => ?_
      cases hout
      exact hold
  · rename_i m todo out hi
    cases h
    refine ⟨_, _, _, rfl, .keeps, ?_⟩
    split_ifs with hin
    · refine .looks hi rfl rfl (by simp [MailboxTask.left]) (fun id hid => ?_) (fun h => h) rfl nofun
        nofun
      rcases List.mem_append.mp hid with hid | hid
      · exact .inr (.inr ⟨hid, nofun⟩)
      · rw [List.mem_singleton.mp hid]
        exact .inr (.inl (by rw [Mailbox.holds, hin, Bool.true_or]))
    · refine .looks hi rfl rfl (by simp [MailboxTask.left]) (fun id hid => ?_) (fun h => h) rfl nofun
        nofun
      rcases List.mem_append.mp hid with hid | hid
      · exact .inr (.inr ⟨hid, nofun⟩)
      · exact .inl (congrArg some (List.mem_singleton.mp hid).symm)
  · rename_i m todo out hi
    cases h
    refine ⟨_, _, _, rfl, .keeps, ?_⟩
    split_ifs with hin
    · refine .looks hi rfl rfl rfl (fun id hid => ?_) (fun h => h) rfl nofun nofun
      by_cases hm : m.id = id
      · exact .inr (.inl (by rw [Mailbox.holds, ← hm, hin, Bool.or_true]))
      · exact .inr (.inr ⟨hid, fun he => hm (Option.some.inj he)⟩)
    · refine .looks hi rfl rfl rfl (fun id hid => ?_) (fun h => h) rfl nofun fun id hid => ?_
      · by_cases hm : m.id = id
        · exact .inl (congrArg some hm)
        · exact .inr (.inr ⟨hid, fun he => hm (Option.some.inj he)⟩)
      · obtain rfl : m.id = id := hid
        rw [SortedMap.containsKey_iff] at hin
        exact ⟨hin, rfl⟩
  · rename_i m todo out hi
    cases h
    refine ⟨_, _, _, rfl, .puts hi, .looks hi rfl rfl rfl (fun id hid => ?_) (fun h => h) rfl nofun nofun⟩
    by_cases hm : m.id = id
    · exact .inr (.inl (Mailbox.holds_put.mpr (.inl hm.symm)))
    · exact .inr (.inr ⟨hid, fun he => hm (Option.some.inj he)⟩)
  · rename_i out hi
    cases h
    exact reads_did hi rfl rfl rfl (fun h => h) nofun nofun
  · rename_i loaded out hi
    cases h
    exact reads_did hi rfl rfl rfl (fun _ => trivial) nofun nofun
  · rename_i id todo loaded out hi
    cases h
    exact reads_did hi rfl rfl rfl (fun h => h) nofun nofun
  · rename_i out hi
    cases h
    refine ⟨_, _, _, rfl, .keeps, ?_⟩
    split_ifs with hsome
    · exact .reads hi rfl rfl rfl (fun _ => trivial) nofun nofun
    · refine .reads hi rfl rfl rfl (fun _ => trivial) nofun fun _ out' hout => ?_
      cases hout
      omega
  · rename_i id todo out hi
    split at h
    · cases h
      exact reads_did hi rfl rfl rfl (fun _ => trivial) nofun nofun
    · rename_i box hbox
      cases h
      refine ⟨_, _, _, rfl, .evicts hbox, ?_⟩
      refine ⟨fun _ _ => ⟨_, rfl⟩, fun out' hout => ?_, fun out' hout id hid => ?_, fun _ => trivial, ?_,
        nofun, nofun⟩
      · cases hout
        exact ⟨out, by rw [hi]; rfl, by rw [hi]; rfl⟩
      · cases hout
        exact .inr (.inr ⟨out, by rw [hi]; rfl, hid, by rw [hi]; nofun⟩)
      · rw [hi]
        simp [MailboxTask.evictions, MailboxTask.account, MailFact.isEvictionBy]
  · rename_i out hi
    cases h
    refine ⟨_, _, _, rfl, .notes, ?_⟩
    refine ⟨fun _ _ => ⟨_, rfl⟩, fun out' hout => ?_, fun out' hout id hid => ?_, fun _ => trivial, ?_,
      fun _ out' hout _ => ?_, nofun⟩
    · cases hout
      exact ⟨out, by rw [hi]; rfl, by rw [hi]; rfl⟩
    · cases hout
      exact .inr (.inr ⟨out, by rw [hi]; rfl, hid, by rw [hi]; nofun⟩)
    · rw [hi]
      rfl
    · cases hout
      exact List.mem_singleton_self _
  · cases h
  · rename_i hi
    cases h
    exact reads_did hi rfl rfl rfl (fun h => h) nofun nofun
  · rename_i loaded hi
    cases h
    exact reads_did hi rfl rfl rfl (fun h => h) nofun nofun
  · rename_i id todo loaded hi
    cases h
    exact reads_did hi rfl rfl rfl (fun h => h) nofun nofun
  · rename_i taken hi
    cases h
    exact reads_did hi rfl rfl rfl (fun h => h) nofun nofun
  · rename_i m todo taken hi
    split at h
    · cases h
      exact reads_did hi rfl rfl rfl (fun h => h) nofun nofun
    · rename_i box hbox
      cases h
      exact ⟨_, _, _, rfl, .hands hi hbox, .moves hi rfl rfl trivial nofun rfl⟩
  · rename_i taken hi
    cases h
    exact reads_did hi rfl rfl rfl (fun h => h) nofun nofun
  · rename_i loaded taken hi
    cases h
    exact reads_did hi rfl rfl rfl (fun h => h) nofun nofun
  · rename_i id todo loaded taken hi
    cases h
    exact reads_did hi rfl rfl rfl (fun h => h) nofun nofun
  · rename_i taken hi
    cases h
    exact reads_did hi rfl rfl rfl (fun h => h) nofun nofun
  · rename_i m todo taken hi
    split_ifs at h with hin
    · cases h
      exact ⟨_, _, _, rfl, .prunes hi, .moves hi rfl rfl trivial nofun rfl⟩
    · cases h
      exact reads_did hi rfl rfl rfl (fun h => h) nofun nofun
  · cases h

/-- What a step is: a task begins, or goes on. -/
theorem step_cases (h : s.step e = some s') :
    (∃ i task, s.tasks i = .idle ∧ s' = s.comes i task ∧
      ((∃ messages, e = .store i messages ∧ task = .checks messages .none) ∨
        e = .take i ∧ task = .listsUnread)) ∨
    ∃ i box facts task, e = .goes i ∧ s' = s.does i box facts task ∧ Files s i box facts ∧
      Progress s i box facts task := by
  cases e with
  | store i messages =>
    simp only [step] at h
    split at h
    · rename_i hi
      cases h
      exact .inl ⟨i, _, hi, rfl, .inl ⟨messages, rfl, rfl⟩⟩
    · cases h
  | take i =>
    simp only [step] at h
    split at h
    · rename_i hi
      cases h
      exact .inl ⟨i, _, hi, rfl, .inr ⟨rfl, rfl⟩⟩
    · cases h
  | goes i =>
    obtain ⟨box, facts, task, hs, hfiles, hprogress⟩ := goOn_did h
    exact .inr ⟨i, box, facts, task, rfl, hs, hfiles, hprogress⟩

theorem tasks_comes_of_ne {j : ι} (hj : j ≠ i) : (s.comes i task).tasks j = s.tasks j :=
  Function.update_of_ne hj ..

theorem tasks_does_of_ne {j : ι} {box : Mailbox} (hj : j ≠ i) :
    (s.does i box facts task).tasks j = s.tasks j :=
  Function.update_of_ne hj ..

theorem tasks_comes_self : (s.comes i task).tasks i = task := Function.update_self ..

theorem tasks_does_self {box : Mailbox} : (s.does i box facts task).tasks i = task :=
  Function.update_self ..

/-! ## The files -/

section
variable {box : Mailbox}

omit [DecidableEq ι] in
theorem Files.holds (h : Files s i box facts) (hid : s.box.holds id = true) :
    box.holds id = true ∨ .pruned id ∈ facts := by
  cases h with
  | keeps => exact .inl hid
  | puts _ => exact .inl (Mailbox.holds_put.mpr (.inr hid))
  | evicts hbox => exact .inl ((Mailbox.holds_markRead hbox).trans hid)
  | notes => exact .inl hid
  | hands _ hbox => exact .inl ((Mailbox.holds_markRead hbox).trans hid)
  | @prunes m todo taken _ =>
    by_cases hm : id = m.id
    · rw [hm]
      exact .inr (List.mem_singleton_self _)
    · rw [Mailbox.holds_forget]
      rcases Mailbox.holds_iff.mp hid with hid | hid
      · exact .inl (.inl hid)
      · exact .inl (.inr ⟨hm, hid⟩)

omit [DecidableEq ι] in
/-- What leaves `new/` goes to a reader, or is evicted. -/
theorem Files.unread (h : Files s i box facts) (hid : id ∈ s.box.unread.keys)
    (hno : id ∉ box.unread.keys) : facts = [.handed id] ∨ facts = [.evicted i id] := by
  cases h with
  | keeps => exact absurd hid hno
  | puts _ => exact absurd (SortedMap.mem_keys_insert.mpr (.inr hid)) hno
  | @evicts x _ hbox =>
    obtain ⟨-, hunread, -⟩ := Mailbox.markRead_eq_some hbox
    by_cases hx : id = x
    · rw [hx]
      exact .inr rfl
    · exact absurd ((hunread id).mpr ⟨hx, hid⟩) hno
  | notes => exact absurd hid hno
  | @hands m _ _ _ _ hbox =>
    obtain ⟨-, hunread, -⟩ := Mailbox.markRead_eq_some hbox
    by_cases hx : id = m.id
    · rw [hx]
      exact .inl rfl
    · exact absurd ((hunread id).mpr ⟨hx, hid⟩) hno
  | prunes _ => exact absurd hid hno

omit [DecidableEq ι] in
theorem Files.notes_eq (h : Files s i box facts) :
    box.notes = facts.filterMap MailFact.noted? ++ s.box.notes := by
  cases h with
  | evicts hbox => exact (Mailbox.markRead_eq_some hbox).2.2.2
  | hands _ hbox => exact (Mailbox.markRead_eq_some hbox).2.2.2
  | _ => rfl

/-- A task counts its own evictions only. -/
theorem Files.countP_eq_zero {j : ι} (h : Files s j box facts) (hj : i ≠ j) :
    facts.countP (MailFact.isEvictionBy i) = 0 := by
  cases h with
  | evicts _ => simp [MailFact.isEvictionBy, hj.symm]
  | _ => rfl

end

/-! ## What a store reports -/

/-- Of the messages that store `i` was given, those it looked for are in the mailbox, or were
removed from it since. -/
def Reports (log : List (MailFact ι)) (messages : List PushMessage) (i : ι) (s : Mailing ι) : Prop :=
  ∃ facts out, s.log = facts ++ log ∧ (s.tasks i).account = some out ∧
    out.ids ++ (s.tasks i).left.map (·.id) = messages.map (·.id) ∧
    ∀ id ∈ out.ids, (s.tasks i).current = some id ∨ s.box.holds id = true ∨ .pruned id ∈ facts

theorem Reports.step {log : List (MailFact ι)} {messages : List PushMessage}
    (h : Reports log messages i s) (hs : s.step e = some s') : Reports log messages i s' := by
  obtain ⟨facts, out, hlog, haccount, hids, hsettled⟩ := h
  obtain ⟨j, task, hj, rfl, -⟩ | ⟨j, box, now, task, -, rfl, hfiles, hprogress⟩ := step_cases hs
  · have hij : i ≠ j := by
      rintro rfl
      rw [hj] at haccount
      cases haccount
    refine ⟨facts, out, hlog, ?_, ?_, ?_⟩
    · rw [tasks_comes_of_ne hij, haccount]
    · rw [tasks_comes_of_ne hij, hids]
    · rw [tasks_comes_of_ne hij]
      exact hsettled
  · have hkept : ∀ id, s.box.holds id = true ∨ .pruned id ∈ facts →
        box.holds id = true ∨ .pruned id ∈ now ++ facts := by
      intro id hid
      rcases hid with hid | hid
      · exact (hfiles.holds hid).imp_right fun h => List.mem_append_left _ h
      · exact .inr (List.mem_append_right _ hid)
    have hlog' : now ++ s.log = now ++ facts ++ log := by rw [hlog, List.append_assoc]
    by_cases hij : i = j
    · subst hij
      obtain ⟨out', hout'⟩ := hprogress.stays out haccount
      refine ⟨now ++ facts, out', hlog', by rw [tasks_does_self, hout'], ?_, fun id hid => ?_⟩
      · obtain ⟨_, hout, heq⟩ := hprogress.ids out' hout'
        obtain rfl := Option.some.inj (haccount.symm.trans hout)
        rw [tasks_does_self, heq, hids]
      · rw [tasks_does_self]
        rcases hprogress.settled out' hout' id hid with h | h | ⟨_, hout, hmem, hcurrent⟩
        · exact .inl h
        · exact .inr (.inl h)
        · obtain rfl := Option.some.inj (haccount.symm.trans hout)
          exact .inr (hkept id ((hsettled id hmem).resolve_left hcurrent))
    · refine ⟨now ++ facts, out, hlog', ?_, ?_, ?_⟩
      · rw [tasks_does_of_ne hij, haccount]
      · rw [tasks_does_of_ne hij, hids]
      · rw [tasks_does_of_ne hij]
        exact fun id hid => (hsettled id hid).imp_right (hkept id)

theorem reports_store {messages : List PushMessage} (hs : s.step (.store i messages) = some s') :
    Reports s.log messages i s' := by
  simp only [step] at hs
  split at hs
  · cases hs
    refine ⟨[], .none, rfl, ?_, ?_, nofun⟩
    · rw [tasks_comes_self]
      rfl
    · rw [tasks_comes_self]
      rfl
  · cases hs

omit [DecidableEq ι] in
theorem Reports.stored {log : List (MailFact ι)} {messages : List PushMessage} {out : Stored}
    (h : Reports log messages i s) (hi : s.tasks i = .stored out) :
    out.ids = messages.map (·.id) ∧ ∃ facts, s.log = facts ++ log ∧
      ∀ id ∈ out.ids, s.box.holds id = true ∨ .pruned id ∈ facts := by
  obtain ⟨facts, out', hlog, haccount, hids, hsettled⟩ := h
  rw [hi] at haccount hids hsettled
  obtain rfl := Option.some.inj haccount
  refine ⟨?_, facts, hlog, fun id hid => (hsettled id hid).resolve_left nofun⟩
  simpa [MailboxTask.left] using hids

/-! ## What a store evicts -/

/-- Each task counts its evictions, and a store that is done left a note of them. -/
def Counted (s : Mailing ι) : Prop :=
  ∀ i, (s.tasks i).Counts ∧ s.evictedBy i = (s.tasks i).evictions ∧
    ∀ out, s.tasks i = .stored out → out.evicted ≠ 0 → .noted i out.evicted ∈ s.log

theorem counted_start (box : Mailbox) : (start box : Mailing ι).Counted := fun _ =>
  ⟨trivial, rfl, nofun⟩

theorem Counted.step (h : s.Counted) (hs : s.step e = some s') : s'.Counted := by
  intro i
  obtain ⟨hcounts, heq, hnoted⟩ := h i
  obtain ⟨j, task, hj, rfl, hbegins⟩ | ⟨j, box, now, task, -, rfl, hfiles, hprogress⟩ := step_cases hs
  · by_cases hij : i = j
    · subst hij
      have hnone : s.evictedBy i = 0 := by rw [heq, hj]; rfl
      rw [tasks_comes_self]
      rcases hbegins with ⟨messages, -, rfl⟩ | ⟨-, rfl⟩
      · exact ⟨rfl, hnone, nofun⟩
      · exact ⟨trivial, hnone, nofun⟩
    · rw [tasks_comes_of_ne hij]
      exact ⟨hcounts, heq, hnoted⟩
  · have hby : (s.does j box now task).evictedBy i =
        now.countP (MailFact.isEvictionBy i) + s.evictedBy i := List.countP_append
    by_cases hij : i = j
    · subst hij
      rw [tasks_does_self]
      refine ⟨hprogress.counts hcounts, ?_, fun out hout hne => ?_⟩
      · rw [hby, heq, hprogress.evictions, Nat.add_comm]
      · exact List.mem_append_left _ (hprogress.noted hcounts out hout hne)
    · rw [tasks_does_of_ne hij, hby, hfiles.countP_eq_zero hij, Nat.zero_add]
      exact ⟨hcounts, heq, fun out hout hne => List.mem_append_right _ (hnoted out hout hne)⟩

theorem notes_eq_of_run {box : Mailbox} {es : List (MailboxEvent ι)}
    (h : run step (start box) es = some s) :
    s.box.notes = s.log.filterMap MailFact.noted? ++ box.notes := by
  refine run_invariant (P := fun s => s.box.notes = s.log.filterMap MailFact.noted? ++ box.notes)
    (fun s e s' hnotes hs => ?_) rfl h
  obtain ⟨j, task, -, rfl, -⟩ | ⟨j, box', now, task, -, rfl, hfiles, -⟩ := step_cases hs
  · exact hnotes
  · show box'.notes = (now ++ s.log).filterMap MailFact.noted? ++ box.notes
    rw [hfiles.notes_eq, hnotes, List.filterMap_append, List.append_assoc]

theorem unread_of_step (hs : s.step e = some s') (hid : id ∈ s.box.unread.keys)
    (hno : id ∉ s'.box.unread.keys) :
    s'.log = .handed id :: s.log ∨ ∃ i, s'.log = .evicted i id :: s.log := by
  obtain ⟨j, task, -, rfl, -⟩ | ⟨j, box, now, task, -, rfl, hfiles, -⟩ := step_cases hs
  · exact absurd hid hno
  · rcases hfiles.unread hid hno with rfl | rfl
    · exact .inl rfl
    · exact .inr ⟨j, rfl⟩

/-! ## Readers -/

/-- Nothing is handed to a reader that is among the last `MAX_READ` handed before it. -/
def HandedOnce (ids : List PushId) : Prop :=
  ∀ later id earlier, ids = later ++ id :: earlier → id ∉ earlier.take MAX_READ

theorem HandedOnce.cons {ids : List PushId} (h : HandedOnce ids) (hid : id ∉ ids.take MAX_READ) :
    HandedOnce (id :: ids) := by
  intro later x earlier heq
  cases later with
  | nil =>
    obtain ⟨rfl, rfl⟩ := List.cons.inj heq
    exact hid
  | cons y later =>
    exact h later x earlier (List.cons.inj heq).2

/-- A reader takes no message that a store is about to write again, and forgets none that is among the
last `MAX_READ` handed. -/
def Orderly (s : Mailing ι) : MailboxEvent ι → Prop
  | .goes i =>
    match s.tasks i with
    | .takes (m :: _) _ => m.id ∈ s.box.unread.keys → ∀ j, ¬(s.tasks j).Writes m.id
    | .prunes (m :: _) _ => m.id ∉ s.recent
    | _ => True
  | _ => True

instance (id : PushId) : ∀ t : MailboxTask, Decidable (t.Writes id)
  | .writes m _ _ => inferInstanceAs (Decidable (m.id = id))
  | .idle | .checks _ _ | .checksRead _ _ _ | .lists _ | .loads _ _ _ | .evicts _ _ | .leavesNote _
  | .stored _ | .listsUnread | .loadsUnread _ _ | .takes _ _ | .listsRead _ | .loadsRead _ _ _
  | .prunes _ _ | .took _ => isFalse not_false

instance [Fintype ι] (s : Mailing ι) : ∀ e, Decidable (s.Orderly e)
  | .store _ _ | .take _ => isTrue trivial
  | .goes i => by
    unfold Orderly
    dsimp only
    split <;> infer_instance

/-- The last `MAX_READ` messages handed are in `read/` and not in `new/`, and no store is about to
write one. -/
structure Reading (s : Mailing ι) : Prop where
  once : HandedOnce s.handed
  read : ∀ id ∈ s.recent, id ∈ s.box.read.keys
  unread : ∀ id ∈ s.recent, id ∉ s.box.unread.keys
  unwritten : ∀ id ∈ s.recent, ∀ j, ¬(s.tasks j).Writes id

omit [DecidableEq ι] in
theorem reading_start (box : Mailbox) : (start box : Mailing ι).Reading :=
  ⟨fun later id earlier h => by simp [handed, start] at h, nofun, nofun, nofun⟩

omit [DecidableEq ι] in
theorem mem_take_cons {ids : List PushId} {x : PushId} {n : Nat} (h : x ∈ (id :: ids).take n) :
    x = id ∨ x ∈ ids.take n := by
  cases n with
  | zero => cases h
  | succ n =>
    rw [List.take_succ_cons] at h
    refine (List.mem_cons.mp h).imp_right fun hx => ?_
    exact (List.take_sublist_take_left (Nat.le_succ n)).subset hx

theorem Reading.step (h : s.Reading) (horderly : s.Orderly e) (hs : s.step e = some s') :
    s'.Reading := by
  obtain ⟨i, task, hi, rfl, hbegins⟩ | ⟨i, box, facts, task, rfl, rfl, hfiles, hprogress⟩ := step_cases hs
  · refine ⟨h.once, h.read, h.unread, fun id hid j => ?_⟩
    by_cases hj : j = i
    · subst hj
      rw [tasks_comes_self]
      rcases hbegins with ⟨messages, -, rfl⟩ | ⟨-, rfl⟩ <;> exact not_false
    · rw [tasks_comes_of_ne hj]
      exact h.unwritten id hid j
  · -- the stage of `i` itself: it writes only what was not in `read/`, where the recent ones are
    have hself : ∀ id ∈ s.recent, ¬task.Writes id := fun id hid hwrites =>
      (hprogress.unheld id hwrites).1 (h.read id hid)
    have hrest : ∀ id ∈ s.recent, ∀ j, ¬((s.does i box facts task).tasks j).Writes id := by
      intro id hid j
      by_cases hj : j = i
      · subst hj
        rw [tasks_does_self]
        exact hself id hid
      · rw [tasks_does_of_ne hj]
        exact h.unwritten id hid j
    cases hfiles with
    | keeps => exact ⟨h.once, h.read, h.unread, hrest⟩
    | @puts m todo out hi =>
      refine ⟨h.once, h.read, fun id hid hin => ?_, hrest⟩
      rcases SortedMap.mem_keys_insert.mp hin with rfl | hin
      · exact h.unwritten m.id hid i (by rw [hi]; rfl)
      · exact h.unread id hid hin
    | evicts hbox =>
      obtain ⟨-, hunread, hread, -⟩ := Mailbox.markRead_eq_some hbox
      refine ⟨h.once, fun id hid => ?_, fun id hid hin => ?_, hrest⟩
      · exact (hread id).mpr (.inr (h.read id hid))
      · exact h.unread id hid ((hunread id).mp hin).2
    | notes => exact ⟨h.once, h.read, h.unread, hrest⟩
    | @hands m todo taken _ hi hbox =>
      obtain ⟨hin, hunread, hread, -⟩ := Mailbox.markRead_eq_some hbox
      have hfree : ∀ j, ¬(s.tasks j).Writes m.id := by
        simp only [Orderly, hi] at horderly
        exact horderly hin
      refine ⟨h.once.cons fun hid => h.unread _ hid hin, fun id hid => ?_, fun id hid hnew => ?_,
        fun id hid j => ?_⟩
      · rcases mem_take_cons hid with rfl | hid
        · exact (hread _).mpr (.inl rfl)
        · exact (hread id).mpr (.inr (h.read id hid))
      · rcases mem_take_cons hid with rfl | hid
        · exact ((hunread _).mp hnew).1 rfl
        · exact h.unread id hid ((hunread id).mp hnew).2
      · rcases mem_take_cons hid with rfl | hid
        · by_cases hj : j = i
          · subst hj
            rw [tasks_does_self]
            intro hwrites
            cases (hprogress.unheld _ hwrites).2.2
          · rw [tasks_does_of_ne hj]
            exact hfree j
        · exact hrest id hid j
    | @prunes m todo taken hi =>
      have hkeep : m.id ∉ s.recent := by
        simpa only [Orderly, hi] using horderly
      refine ⟨h.once, fun id hid => ?_, h.unread, hrest⟩
      exact SortedMap.mem_keys_erase.mpr ⟨fun he => hkeep (he ▸ hid), h.read id hid⟩

/-! ## A store that runs alone -/

/-- Task `i` goes on, alone, until it is at a stage and the mailbox is as given. -/
def Reaches (s : Mailing ι) (i : ι) (box : Mailbox) (task : MailboxTask) : Prop :=
  ∃ n s', run step s (List.replicate n (.goes i)) = some s' ∧ s'.box = box ∧ s'.tasks i = task

theorem reaches_self (hi : s.tasks i = task) : s.Reaches i s.box task := ⟨0, s, rfl, rfl, hi⟩

theorem Reaches.trans {box box' : Mailbox} {task' : MailboxTask} (h : s.Reaches i box task)
    (hthen : ∀ t : Mailing ι, t.box = box → t.tasks i = task → t.Reaches i box' task') :
    s.Reaches i box' task' := by
  obtain ⟨n, t, hrun, hbox, htask⟩ := h
  obtain ⟨n', s', hrun', hs'⟩ := hthen t hbox htask
  refine ⟨n + n', s', ?_, hs'⟩
  rw [← List.replicate_append_replicate]
  exact run_append.mpr ⟨t, hrun, hrun'⟩

theorem reaches_comes (task : MailboxTask) (h : s.goOn i = some (s.comes i task)) : s.Reaches i s.box task :=
  ⟨1, _, run_cons.mpr ⟨_, h, rfl⟩, rfl, tasks_comes_self⟩

theorem reaches_does (box : Mailbox) (facts : List (MailFact ι)) (task : MailboxTask)
    (h : s.goOn i = some (s.does i box facts task)) :
    s.Reaches i box task :=
  ⟨1, _, run_cons.mpr ⟨_, h, rfl⟩, rfl, tasks_does_self⟩

theorem reaches_writes {m : PushMessage} {todo : List PushMessage} {out : Stored}
    (hi : s.tasks i = .writes m todo out) :
    s.Reaches i (s.box.put m) (.checks todo { out with fresh := out.fresh + 1 }) := by
  refine reaches_does _ [] _ ?_
  simp only [goOn, hi]

theorem reaches_checks {todo : List PushMessage} {out : Stored} (hi : s.tasks i = .checks todo out) :
    s.Reaches i (todo.foldl Mailbox.storeOne (s.box, out)).1
      (.checks [] (todo.foldl Mailbox.storeOne (s.box, out)).2) := by
  induction todo generalizing s out with
  | nil => exact reaches_self hi
  | cons m todo ih =>
    rw [List.foldl_cons]
    by_cases hunread : s.box.unread.containsKey m.id = true
    · have hone : Mailbox.storeOne (s.box, out) m = (s.box, { out with ids := out.ids ++ [m.id] }) :=
        if_pos (by rw [Mailbox.holds, hunread, Bool.true_or])
      rw [hone]
      refine (reaches_comes (.checks todo _) ?_).trans fun t hbox ht => hbox ▸ ih ht
      simp only [goOn, hi, if_pos hunread]
    · have hlook : s.Reaches i s.box (.checksRead m todo { out with ids := out.ids ++ [m.id] }) := by
        refine reaches_comes _ ?_
        simp only [goOn, hi, if_neg hunread]
      refine hlook.trans fun t hbox ht => ?_
      rw [← hbox] at hunread ⊢
      by_cases hread : t.box.read.containsKey m.id = true
      · have hone : Mailbox.storeOne (t.box, out) m =
            (t.box, { out with ids := out.ids ++ [m.id] }) :=
          if_pos (by rw [Mailbox.holds, hread, Bool.or_true])
        rw [hone]
        refine (reaches_comes (.checks todo _) ?_).trans fun u hbox hu => hbox ▸ ih hu
        simp only [goOn, ht, if_pos hread]
      · have hone : Mailbox.storeOne (t.box, out) m =
            (t.box.put m, ⟨out.ids ++ [m.id], out.fresh + 1, out.evicted⟩) := by
          refine if_neg fun hholds => ?_
          rcases (Bool.or_eq_true _ _).mp hholds with h | h
          · exact hunread h
          · exact hread h
        rw [hone]
        have hwrites : t.Reaches i t.box (.writes m todo { out with ids := out.ids ++ [m.id] }) := by
          refine reaches_comes _ ?_
          simp only [goOn, ht, if_neg hread]
        refine hwrites.trans fun u hbox hu => ?_
        refine (reaches_writes hu).trans fun v hbox' hv => ?_
        rw [← hbox, ← hbox']
        exact ih hv

theorem reaches_loads {todo : List PushId} {loaded : List PushMessage} {out : Stored}
    (hi : s.tasks i = .loads todo loaded out) :
    s.Reaches i s.box
      (.loads [] (loaded ++ todo.flatMap fun id => (s.box.unread.get? id).toList) out) := by
  induction todo generalizing s loaded with
  | nil =>
    rw [List.flatMap_nil, List.append_nil]
    exact reaches_self hi
  | cons id todo ih =>
    rw [List.flatMap_cons, ← List.append_assoc]
    have hload : s.Reaches i s.box (.loads todo (loaded ++ (s.box.unread.get? id).toList) out) := by
      refine reaches_comes _ ?_
      simp only [goOn, hi]
    refine hload.trans fun t hbox ht => ?_
    rw [← hbox] at ht ⊢
    exact ih ht

theorem reaches_evicts {todo : List PushId} {out : Stored} (hi : s.tasks i = .evicts todo out) :
    s.Reaches i (todo.foldl Mailbox.evictOne (s.box, out)).1
      (.evicts [] (todo.foldl Mailbox.evictOne (s.box, out)).2) := by
  induction todo generalizing s out with
  | nil => exact reaches_self hi
  | cons id todo ih =>
    rw [List.foldl_cons]
    cases hmark : s.box.markRead id with
    | none =>
      have hone : Mailbox.evictOne (s.box, out) id = (s.box, out) := by
        simp only [Mailbox.evictOne, hmark]
      rw [hone]
      refine (reaches_comes (.evicts todo out) ?_).trans fun t hbox ht => hbox ▸ ih ht
      simp only [goOn, hi, hmark]
    | some box =>
      have hone : Mailbox.evictOne (s.box, out) id = (box, { out with evicted := out.evicted + 1 }) := by
        simp only [Mailbox.evictOne, hmark]
      rw [hone]
      refine (reaches_does box [.evicted i id] (.evicts todo _) ?_).trans
        fun t hbox ht => hbox ▸ ih ht
      simp only [goOn, hi, hmark]

theorem reaches_makeRoom {out : Stored} (hi : s.tasks i = .lists out) :
    s.Reaches i (Mailbox.makeRoom (s.box, out)).1 (.stored (Mailbox.makeRoom (s.box, out)).2) := by
  have hlist : s.Reaches i s.box (.loads s.box.unread.keys [] out) := by
    refine reaches_comes _ ?_
    simp only [goOn, hi]
  refine hlist.trans fun t hbox ht => ?_
  rw [← hbox] at ht ⊢
  refine (reaches_loads ht).trans fun u hbox hu => ?_
  rw [List.nil_append, SortedMap.flatMap_get?_keys] at hu
  have hevict : u.Reaches i u.box (.evicts (Mailbox.toEvict t.box.unread.values) out) := by
    refine reaches_comes _ ?_
    simp only [goOn, hu]
  refine hevict.trans fun v hbox' hv => ?_
  rw [← hbox, ← hbox'] at hv ⊢
  refine (reaches_evicts hv).trans fun w hbox hw => ?_
  unfold Mailbox.makeRoom
  generalize (Mailbox.toEvict v.box.unread.values).foldl Mailbox.evictOne (v.box, out) = p at hbox hw ⊢
  obtain ⟨box, out'⟩ := p
  obtain rfl : w.box = box := hbox
  dsimp only at hw ⊢
  split_ifs with hevicted
  · have hnote : w.Reaches i w.box (.leavesNote out') := by
      refine reaches_comes _ ?_
      simp only [goOn, hw, if_pos hevicted]
    refine hnote.trans fun x hbox hx => ?_
    rw [← hbox]
    refine reaches_does _ [.noted i out'.evicted] _ ?_
    simp only [goOn, hx]
  · refine reaches_comes _ ?_
    simp only [goOn, hw, if_neg hevicted]

/-- The steps of a store that no other task comes between do what `Mailbox.store` does. -/
theorem reaches_stored {messages : List PushMessage} (hi : s.tasks i = .checks messages .none) :
    s.Reaches i (s.box.store messages).1 (.stored (s.box.store messages).2) := by
  refine (reaches_checks hi).trans fun t hbox ht => ?_
  unfold Mailbox.store
  generalize messages.foldl Mailbox.storeOne (s.box, .none) = p at hbox ht ⊢
  obtain ⟨box, out⟩ := p
  obtain rfl : t.box = box := hbox
  dsimp only at ht ⊢
  split_ifs with hfresh
  · have hlist : t.Reaches i t.box (.lists out) := by
      refine reaches_comes _ ?_
      simp only [goOn, ht, if_pos hfresh]
    refine hlist.trans fun u hbox hu => ?_
    rw [← hbox]
    exact reaches_makeRoom hu
  · refine reaches_comes _ ?_
    simp only [goOn, ht, if_neg hfresh]

end Mailing

/-- **What a mailbox delivers.** In every run of the file operations of any stores and readers of one
mailbox: a store reports the ids of its batch, and each is in the mailbox, or a reader's pruning
removed it since the store began; what leaves `new/` was handed to a reader or evicted, and a store
that evicted left a note that counts it; and where every step is orderly, no reader is handed what is
among the last `MAX_READ` messages handed. -/
theorem delivered_once {ι : Type} [DecidableEq ι] (box : Mailbox) (es : List (MailboxEvent ι))
    (s : Mailing ι) (hrun : run Mailing.step (.start box) es = some s) :
    (∀ es₁ i messages es₂ s₁ out, es = es₁ ++ .store i messages :: es₂ →
      run Mailing.step (.start box) es₁ = some s₁ → s.tasks i = .stored out →
      out.ids = messages.map (·.id) ∧ ∃ facts, s.log = facts ++ s₁.log ∧
        ∀ id ∈ out.ids, s.box.holds id = true ∨ .pruned id ∈ facts) ∧
    (∀ es₁ e es₂ s₁ s₂ id, es = es₁ ++ e :: es₂ → run Mailing.step (.start box) es₁ = some s₁ →
      s₁.step e = some s₂ → id ∈ s₁.box.unread.keys → id ∉ s₂.box.unread.keys →
      s₂.log = .handed id :: s₁.log ∨ ∃ i, s₂.log = .evicted i id :: s₁.log) ∧
    (∀ i out, s.tasks i = .stored out → s.evictedBy i = out.evicted ∧
      (out.evicted ≠ 0 → .noted i out.evicted ∈ s.log)) ∧
    s.box.notes = s.log.filterMap MailFact.noted? ++ box.notes ∧
    ((∀ es₁ e es₂ s₁, es = es₁ ++ e :: es₂ → run Mailing.step (.start box) es₁ = some s₁ →
      s₁.Orderly e) → Mailing.HandedOnce s.handed) := by
  refine ⟨fun es₁ i messages es₂ s₁ out heq hrun₁ hi => ?_, fun es₁ e es₂ s₁ s₂ id _ _ hs hid hno => ?_,
    fun i out hi => ?_, Mailing.notes_eq_of_run hrun, fun horderly => ?_⟩
  · subst heq
    obtain ⟨_, hstart, hrest⟩ := run_append.mp hrun
    obtain rfl := Option.some.inj (hrun₁.symm.trans hstart)
    obtain ⟨s₂, hs, hrest⟩ := run_cons.mp hrest
    have hreports := run_invariant (fun _ _ _ h hs => Mailing.Reports.step h hs)
      (Mailing.reports_store hs) hrest
    exact hreports.stored hi
  · exact Mailing.unread_of_step hs hid hno
  · have hcounted := run_invariant (fun _ _ _ h hs => Mailing.Counted.step h hs)
      (Mailing.counted_start box) hrun
    obtain ⟨-, heq, hnoted⟩ := hcounted i
    refine ⟨?_, hnoted out hi⟩
    rw [heq, hi]
    rfl
  · exact (run_invariant_of (fun _ _ _ h horderly hs => Mailing.Reading.step h horderly hs)
      (Mailing.reading_start box) horderly hrun).once

/-! ## One message -/

section Sample

/-- It is stored, a reader takes it, and it is stored again. -/
def sampleStores : List (MailboxEvent (Option Bool)) :=
  .store none [sampleMessage] :: List.replicate 8 (.goes none) ++ .take (some true) ::
    List.replicate 9 (.goes (some true)) ++ .store (some false) [sampleMessage] ::
    List.replicate 3 (.goes (some false))

theorem run_sampleStores : ∃ s, run Mailing.step (.start ⟨∅, ∅, []⟩) sampleStores = some s ∧
    s.tasks none = .stored ⟨[Bytes.fill 16 1], 1, 0⟩ ∧
    s.tasks (some false) = .stored ⟨[Bytes.fill 16 1], 0, 0⟩ ∧ s.handed = [Bytes.fill 16 1] := by
  have h : (run Mailing.step (.start ⟨∅, ∅, []⟩) sampleStores).map
      (fun s => (s.tasks none, s.tasks (some false), s.handed)) =
      some (.stored ⟨[Bytes.fill 16 1], 1, 0⟩, .stored ⟨[Bytes.fill 16 1], 0, 0⟩, [Bytes.fill 16 1]) := by
    decide
  obtain ⟨s, hrun, heq⟩ := Option.map_eq_some_iff.mp h
  obtain ⟨hnone, hrest⟩ := Prod.mk.inj heq
  obtain ⟨hsome, hhanded⟩ := Prod.mk.inj hrest
  exact ⟨s, hrun, hnone, hsome, hhanded⟩

theorem orderly_sampleStores :
    Along Mailing.step Mailing.Orderly (.start ⟨∅, ∅, []⟩) sampleStores := by
  decide +kernel

/-- It is told once where it is, and handed to a reader once. -/
theorem delivered_once_sample : ∃ s, run Mailing.step (.start ⟨∅, ∅, []⟩) sampleStores = some s ∧
    s.handed = [Bytes.fill 16 1] ∧ Mailing.HandedOnce s.handed ∧
    ∃ facts, s.log = facts ++ [] ∧
      ∀ id ∈ [Bytes.fill 16 1], s.box.holds id = true ∨ .pruned id ∈ facts := by
  obtain ⟨s, hrun, hnone, -, hhanded⟩ := run_sampleStores
  obtain ⟨hstored, -, -, -, honce⟩ := delivered_once _ sampleStores s hrun
  refine ⟨s, hrun, hhanded, honce (along_iff.mp orderly_sampleStores), ?_⟩
  exact (hstored [] none [sampleMessage] _ _ _ rfl rfl hnone).2

/-- Two stores of it, of which the second looks for it before the first writes it, and writes it after
a reader took it; and the next reader takes it again. -/
def racingStores : List (MailboxEvent Nat) :=
  [.store 0 [sampleMessage], .store 1 [sampleMessage], .goes 0, .goes 0, .goes 1, .goes 1, .goes 0,
    .take 2, .goes 2, .goes 2, .goes 2, .goes 2, .goes 1, .take 3, .goes 3, .goes 3, .goes 3, .goes 3]

theorem handed_twice : ∃ s, run Mailing.step (.start ⟨∅, ∅, []⟩) racingStores = some s ∧
    ¬Mailing.HandedOnce s.handed := by
  have h : (run Mailing.step (.start ⟨∅, ∅, []⟩) racingStores).map (·.handed) =
      some [Bytes.fill 16 1, Bytes.fill 16 1] := by decide
  obtain ⟨s, hrun, hhanded⟩ := Option.map_eq_some_iff.mp h
  refine ⟨s, hrun, fun honce => ?_⟩
  exact honce [] _ _ hhanded List.mem_cons_self

end Sample

end Wires
