import Wires.Framework.Best
import Wires.Impl.Fresh
import Wires.Proof.Signing
import Mathlib.Data.Prod.Lex
import Mathlib.Order.BooleanAlgebra.Basic

/-!
# What a set of words keeps

`Inserts` is what one insertion does. At one time, the words a `FreshSet` keeps
of those it is given lead them (`Leads`): one of each signer, and of the signers
those whose best words rank highest (`best_kept`).
-/

namespace Wires

variable [Crypto]

namespace FreshSet

variable {now : Int64} {set : FreshSet} {v w h : VerifiedFresh} {held held' : List VerifiedFresh}

/-- The signer of a word. -/
def signer (v : VerifiedFresh) : NodeId := v.fresh.directory

/-- A word's rank, where the order of ranks is that of its type. -/
def order (now : Int64) (v : VerifiedFresh) : ℕ ×ₗ Bool ×ₗ ℤ :=
  toLex (v.fresh.version.toNat, toLex (v.fresh.isCurrent now, v.fresh.until_.toInt))

omit [Crypto] in
theorem rankLe_iff_le (a b : UInt64 × Bool × Int64) : rankLe a b = true ↔
    toLex (a.1.toNat, toLex (a.2.1, a.2.2.toInt)) ≤ toLex (b.1.toNat, toLex (b.2.1, b.2.2.toInt)) := by
  obtain ⟨v, c, u⟩ := a
  obtain ⟨v', c', u'⟩ := b
  simp only [rankLe, Prod.Lex.toLex_le_toLex, Bool.or_eq_true, Bool.and_eq_true,
    decide_eq_true_eq, UInt64.lt_iff_toNat_lt, ← UInt64.toNat_inj, Int64.le_iff_toInt_le]
  cases c <;> cases c' <;> simp

theorem rankLe_iff : rankLe (rank now v.fresh) (rank now w.fresh) = true ↔ order now v ≤ order now w :=
  rankLe_iff_le _ _

/-- What an insertion comes to: the words after it, and whether the word was kept. -/
inductive Inserts (now : Int64) (v : VerifiedFresh) (held : List VerifiedFresh) :
    List VerifiedFresh → Bool → Prop
  | keep {h : VerifiedFresh} (hmem : h ∈ held) (hsigner : signer v = signer h) (hle : order now v ≤ order now h) :
      Inserts now v held held false
  | replace {h : VerifiedFresh} {i : Nat} (hi : held[i]? = some h) (hsigner : signer v = signer h)
      (hlt : order now h < order now v) : Inserts now v held (held.set i v) true
  | refuse (hsigner : signer v ∉ held.map signer) (hfull : MAX_FRESH_SET ≤ held.length)
      (hle : ∀ h ∈ held, order now v ≤ order now h) : Inserts now v held held false
  | displace {h : VerifiedFresh} {i : Nat} (hi : held[i]? = some h) (hsigner : signer v ∉ held.map signer)
      (hfull : MAX_FRESH_SET ≤ held.length) (hworst : ∀ x ∈ held, order now h ≤ order now x)
      (hlt : order now h < order now v) : Inserts now v held (held.eraseIdx i ++ [v]) true
  | join (hsigner : signer v ∉ held.map signer) (hroom : held.length < MAX_FRESH_SET) :
      Inserts now v held (held ++ [v]) true

theorem worst_spec (now : Int64) (hne : held ≠ []) : ∃ h, held[worst now held]? = some h ∧
    ∀ x ∈ held, order now h ≤ order now x := by
  induction held with
  | nil => exact absurd rfl hne
  | cons w ws ih =>
    cases ws with
    | nil => exact ⟨w, rfl, by simp⟩
    | cons x xs =>
      obtain ⟨least, hleast, hle⟩ := ih (by simp)
      simp only [worst, hleast]
      split_ifs with hrank
      · rw [rankLe_iff] at hrank
        refine ⟨w, rfl, fun y hy => ?_⟩
        rcases List.mem_cons.mp hy with rfl | hy
        · exact le_rfl
        · exact hrank.trans (hle y hy)
      · rw [rankLe_iff, not_le] at hrank
        refine ⟨least, hleast, fun y hy => ?_⟩
        rcases List.mem_cons.mp hy with rfl | hy
        · exact hrank.le
        · exact hle y hy

theorem inserts (set : FreshSet) (v : VerifiedFresh) (now : Int64) :
    Inserts now v set.words (set.insert v now).1.words (set.insert v now).2 := by
  unfold insert
  split
  · rename_i i hi
    obtain ⟨hlt, hsigner, -⟩ := List.findIdx?_eq_some_iff_getElem.mp hi
    have hsigner : signer v = signer set.words[i] := by simpa [signer, eq_comm] using hsigner
    rw [List.getElem?_eq_getElem hlt]
    dsimp only
    split_ifs with hrank
    · exact .keep (List.getElem_mem hlt) hsigner (rankLe_iff.mp hrank)
    · rw [rankLe_iff, not_le] at hrank
      exact .replace (List.getElem?_eq_getElem hlt) hsigner hrank
  · rename_i hnone
    have hsigner : signer v ∉ set.words.map signer := by
      simpa [signer, List.findIdx?_eq_none_iff] using hnone
    split_ifs with hfull
    · obtain ⟨least, hleast, hworst⟩ := @worst_spec _ set.words now (by
        rintro hnil
        simp [hnil, MAX_FRESH_SET] at hfull)
      dsimp only
      rw [hleast]
      dsimp only
      split_ifs with hrank
      · exact .refuse hsigner hfull fun h hh => (rankLe_iff.mp hrank).trans (hworst h hh)
      · rw [rankLe_iff, not_le] at hrank
        exact .displace hleast hsigner hfull hworst hrank
    · exact .join hsigner (not_le.mp hfull)

/-! ## The best of each signer -/

/-- One word of each signer, and no more than there is room for. -/
def Tidy (held : List VerifiedFresh) : Prop :=
  (held.map signer).Nodup ∧ held.length ≤ MAX_FRESH_SET

theorem Tidy.leads (ht : Tidy held) (now : Int64) :
    Leads signer (order now) MAX_FRESH_SET held held where
  sub _ hh := hh
  nodup := ht.1
  length := ht.2
  best _ hh _ hw heq := le_of_eq (congrArg _ (List.inj_on_of_nodup_map ht.1 hw hh heq))
  rest _ hw hnot := absurd (List.mem_map_of_mem hw) hnot

theorem Inserts.leads {seen : List VerifiedFresh} {kept : Bool} (hi : Inserts now v held held' kept)
    (hl : Leads signer (order now) MAX_FRESH_SET seen held) :
    Leads signer (order now) MAX_FRESH_SET (v :: seen) held' := by
  cases hi with
  | keep hmem hsigner hle => exact hl.keep hmem hsigner hle
  | replace hi hsigner hlt =>
    obtain ⟨hbound, rfl⟩ := List.getElem?_eq_some_iff.mp hi
    exact hl.replace (List.getElem_cons_eraseIdx_perm hbound).symm
      (List.set_perm_cons_eraseIdx hbound v) hsigner hlt.le
  | refuse hsigner hfull hle => exact hl.refuse hsigner (le_antisymm hl.length hfull) hle
  | displace hi hsigner hfull hworst hlt =>
    obtain ⟨hbound, rfl⟩ := List.getElem?_eq_some_iff.mp hi
    exact hl.displace (List.getElem_cons_eraseIdx_perm hbound).symm (List.perm_append_singleton _ _)
      hsigner (le_antisymm hl.length hfull) hworst hlt.le
  | join hsigner hroom => exact hl.join (List.perm_append_singleton _ _) hsigner hroom

theorem tidy_insert (ht : Tidy set.words) (v : VerifiedFresh) (now : Int64) :
    Tidy (set.insert v now).1.words :=
  have hl := (inserts set v now).leads (ht.leads now)
  ⟨hl.nodup, hl.length⟩

/-- The words put in one after the other, each at a time. -/
def insertAll (set : FreshSet) (ws : List (VerifiedFresh × Int64)) : FreshSet :=
  ws.foldl (fun s w => (s.insert w.1 w.2).1) set

/-- The words put in one after the other, at one time. -/
def insertAt (set : FreshSet) (now : Int64) (ws : List VerifiedFresh) : FreshSet :=
  ws.foldl (fun s w => (s.insert w now).1) set

theorem tidy_insertAll (ht : Tidy set.words) (ws : List (VerifiedFresh × Int64)) :
    Tidy (set.insertAll ws).words := by
  induction ws generalizing set with
  | nil => exact ht
  | cons w ws ih => exact ih (tidy_insert ht w.1 w.2)

theorem tidy_empty : Tidy empty.words := ⟨List.nodup_nil, Nat.zero_le _⟩

theorem leads_insertAt {seen : List VerifiedFresh} (ws : List VerifiedFresh)
    (hl : Leads signer (order now) MAX_FRESH_SET seen set.words) :
    Leads signer (order now) MAX_FRESH_SET (seen ++ ws) (set.insertAt now ws).words := by
  induction ws generalizing set seen with
  | nil => exact hl.congr fun x => by simp
  | cons w ws ih => exact (ih ((inserts set w now).leads hl)).congr fun x => by simp; tauto

/-! ## One insertion -/

/-- No word held is lost to a lower one of its signer. -/
theorem Inserts.order_le {kept : Bool} (hi : Inserts now v held held' kept) (ht : Tidy held)
    {h h' : VerifiedFresh} (hh : h ∈ held) (hh' : h' ∈ held') (heq : signer h = signer h') :
    order now h ≤ order now h' := by
  have hl := hi.leads (ht.leads now)
  exact hl.best h' hh' h (List.mem_cons_of_mem _ hh) heq

/-- An insertion says that it kept the word when it changed the set. -/
theorem Inserts.kept_iff {kept : Bool} (hi : Inserts now v held held' kept) :
    kept = true ↔ held' ≠ held := by
  cases hi with
  | keep | refuse => simp
  | @replace h i hi hsigner hlt =>
    obtain ⟨hbound, rfl⟩ := List.getElem?_eq_some_iff.mp hi
    refine iff_of_true rfl fun heq => hlt.ne ?_
    have hsame := congrArg (fun l : List VerifiedFresh => l[i]?) heq
    simp only [List.getElem?_set_self hbound, List.getElem?_eq_getElem hbound, Option.some.injEq]
      at hsame
    rw [hsame]
  | displace hi hsigner =>
    refine iff_of_true rfl fun heq => hsigner ?_
    rw [← heq]
    simp
  | join => simp

/-- A word already held changes nothing. -/
theorem Inserts.of_mem {kept : Bool} (hi : Inserts now v held held' kept) (ht : Tidy held)
    (hv : v ∈ held) : held' = held ∧ kept = false := by
  cases hi with
  | keep | refuse => exact ⟨rfl, rfl⟩
  | replace hi hsigner hlt =>
    have hh := List.mem_of_getElem? hi
    rw [List.inj_on_of_nodup_map ht.1 hv hh hsigner] at hlt
    exact absurd hlt (lt_irrefl _)
  | displace hi hsigner => exact absurd (List.mem_map_of_mem hv) hsigner
  | join hsigner => exact absurd (List.mem_map_of_mem hv) hsigner

/-- The set after words put in at one time, whatever it had been given before, and when. -/
def given (history : List (VerifiedFresh × Int64)) (now : Int64) (ws : List VerifiedFresh) : FreshSet :=
  (empty.insertAll history).insertAt now ws

/-- A set keeps the best word of each signer, as far as there is room, in whatever order it is given
them. -/
theorem best_kept (history : List (VerifiedFresh × Int64)) (now : Int64) (ws : List VerifiedFresh) :
    (((given history now ws).words.map signer).Nodup ∧
      (given history now ws).words.length ≤ MAX_FRESH_SET) ∧
    ((given history now ws).words.map (order now)).Perm (leading MAX_FRESH_SET
      (bests signer (order now) ((empty.insertAll history).words ++ ws))) ∧
    (∀ ws', ws.Perm ws' → ((given history now ws).words.map (order now)).Perm
      ((given history now ws').words.map (order now))) ∧
    ∀ v, (∀ h ∈ (given history now ws).words, ∀ h' ∈ ((given history now ws).insert v now).1.words,
        signer h = signer h' → order now h ≤ order now h') ∧
      (((given history now ws).insert v now).2 = true ↔
        ((given history now ws).insert v now).1 ≠ given history now ws) ∧
      (v ∈ (given history now ws).words →
        (given history now ws).insert v now = (given history now ws, false)) := by
  have ht := tidy_insertAll tidy_empty history
  have hleads : ∀ ws, Leads signer (order now) MAX_FRESH_SET ((empty.insertAll history).words ++ ws)
      (given history now ws).words := fun ws => leads_insertAt ws (ht.leads now)
  have hl := hleads ws
  refine ⟨⟨hl.nodup, hl.length⟩, hl.ranks, fun ws' hperm => ?_, fun v => ?_⟩
  · have hl' := (hleads ws').congr fun x => show _ ↔ x ∈ (empty.insertAll history).words ++ ws by
      simp [hperm.mem_iff]
    exact hl.ranks.trans hl'.ranks.symm
  · have hi := inserts (given history now ws) v now
    have htidy : Tidy (given history now ws).words := ⟨hl.nodup, hl.length⟩
    have hext : ∀ a b : FreshSet, a = b ↔ a.words = b.words := fun a b => by
      cases a
      cases b
      simp
    refine ⟨fun h hh h' hh' heq => hi.order_le htidy hh hh' heq, ?_, fun hv => ?_⟩
    · rw [Ne, hext]
      exact hi.kept_iff
    · obtain ⟨hsame, hkept⟩ := hi.of_mem htidy hv
      exact Prod.ext ((hext _ _).mpr hsame) hkept

end FreshSet

end Wires
