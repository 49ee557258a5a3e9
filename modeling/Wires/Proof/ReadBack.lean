import Wires.Impl.Follow
import Wires.Proof.Frames
import Wires.Proof.Freshness
import Wires.Proof.FreshSet

/-!
# Words read back

A set of words read back ranks each at its own time, so which word of a signer
is kept can depend on their order. In a list in which no word is dated too far
before a longer one ahead of it (`InOrder`), the longest word of each signer is
kept (`kept_longest`). What a set wrote is read back as it was (`read_back`).
-/

namespace Wires

section

variable [Crypto]

namespace FreshSet

variable {head : SignedPolicyHead} {ws : List Fresh} {set : FreshSet} {f g : Fresh}

/-- The words of a list that verify. -/
def verifying (head : SignedPolicyHead) (ws : List Fresh) : List Fresh :=
  ws.filter fun f => isOk (f.verify head)

theorem mem_verifying : f ∈ verifying head ws ↔ f ∈ ws ∧ f.verify head = .ok () := by
  simp [verifying]

/-- The directories that signed a list's verifying words. -/
def signers (head : SignedPolicyHead) (ws : List Fresh) : List NodeId :=
  ((verifying head ws).map (·.directory)).dedup

/-- One word of a signer is not dated so far before another that the other, which lasts longer, is
not current then. -/
def Follows (head : SignedPolicyHead) (f g : Fresh) : Prop :=
  f.verify head = .ok () → g.verify head = .ok () → f.directory = g.directory →
    g.until_ < f.until_ → satSub f.at_ CLOCK_SKEW_SECS ≤ g.at_

/-- Each word may follow any ahead of it. -/
def InOrder (head : SignedPolicyHead) (ws : List Fresh) : Prop := ws.Pairwise (Follows head)

/-- A word that verifies and lasts as long as any of its signer that does. -/
def Longest (head : SignedPolicyHead) (ws : List Fresh) (f : Fresh) : Prop :=
  f ∈ verifying head ws ∧ ∀ g ∈ verifying head ws, g.directory = f.directory → g.until_ ≤ f.until_

theorem fromUnverified_concat (ws : List Fresh) (f : Fresh) (head : SignedPolicyHead) :
    fromUnverified (ws ++ [f]) head =
      match f.toVerified head with
      | .ok v => ((fromUnverified ws head).insert v f.at_).1
      | .error _ => fromUnverified ws head := by
  rw [fromUnverified, List.foldl_append]
  rfl

/-- What is kept of a list is in it, and verifies. -/
theorem mem_of_fromUnverified {v : VerifiedFresh} (hv : v ∈ (fromUnverified ws head).words) :
    v.fresh ∈ verifying head ws := by
  induction ws using List.reverseRecOn with
  | nil => cases hv
  | append_singleton ws f ih =>
    rw [fromUnverified_concat] at hv
    have hearlier : v ∈ (fromUnverified ws head).words → v.fresh ∈ verifying head (ws ++ [f]) := fun h =>
      mem_verifying.mpr ((mem_verifying.mp (ih h)).imp_left (List.mem_append_left _))
    split at hv
    · rename_i u hu
      obtain ⟨hok, hfresh⟩ := Fresh.toVerified_eq_ok.mp hu
      rcases mem_insert hv with h | rfl
      · exact hearlier h
      · exact mem_verifying.mpr ⟨by simp [hfresh], hfresh ▸ hok⟩
    · exact hearlier hv

theorem tidy_fromUnverified (ws : List Fresh) (head : SignedPolicyHead) :
    Tidy (fromUnverified ws head).words := by
  induction ws using List.reverseRecOn with
  | nil => exact tidy_empty
  | append_singleton ws f ih =>
    rw [fromUnverified_concat]
    split
    · exact tidy_insert ih _ _
    · exact ih

/-- Every verifying word's signer is kept, with a word that lasts as long. -/
def Keeps (head : SignedPolicyHead) (ws : List Fresh) (held : List VerifiedFresh) : Prop :=
  ∀ f ∈ verifying head ws, ∃ h ∈ held, signer h = f.directory ∧ f.until_ ≤ h.fresh.until_

/-- Words that verify for one head rank by whether they are current, then by how long they last. -/
theorem order_le_iff {now : Int64} {v h : VerifiedFresh} (hv : v.fresh.verify head = .ok ())
    (hh : h.fresh.verify head = .ok ()) : order now v ≤ order now h ↔
      v.fresh.isCurrent now < h.fresh.isCurrent now ∨
      v.fresh.isCurrent now = h.fresh.isCurrent now ∧ v.fresh.until_ ≤ h.fresh.until_ := by
  have hversion : v.fresh.version = h.fresh.version :=
    (Fresh.verify_eq_ok.mp hv).2.2.1.2.1.trans (Fresh.verify_eq_ok.mp hh).2.2.1.2.1.symm
  simp [order, Prod.Lex.toLex_le_toLex, hversion, Int64.le_iff_toInt_le]

/-- A word is current when it was signed. -/
theorem isCurrent_at (h : f.verify head = .ok ()) : f.isCurrent f.at_ = true := by
  have hle := Int64.le_iff_toInt_le.mp (Fresh.verify_eq_ok.mp h).2.2.2.2.1
  have hskew := Fresh.toInt_skew
  rw [Fresh.isCurrent_iff]
  omega

/-- Taking in a word that may follow those before it. -/
theorem keeps_insert {v : VerifiedFresh} (hk : Keeps head ws set.words) (ht : Tidy set.words)
    (hv : v.fresh.verify head = .ok ()) (hmem : ∀ h ∈ set.words, h.fresh ∈ verifying head ws)
    (hfollows : ∀ f ∈ ws, Follows head f v.fresh)
    (hroom : (signers head (ws ++ [v.fresh])).length ≤ MAX_FRESH_SET) :
    Keeps head (ws ++ [v.fresh]) (set.insert v v.fresh.at_).1.words := by
  have hi := inserts set v v.fresh.at_
  have hl := hi.leads (ht.leads v.fresh.at_)
  have hverify : ∀ h ∈ v :: set.words, h.fresh.verify head = .ok () := fun h hh => by
    rcases List.mem_cons.mp hh with rfl | hh
    · exact hv
    · exact (mem_verifying.mp (hmem h hh)).2
  -- The signers held and the new one all signed words of the list, so there is room for them.
  have hlisted : ∀ h ∈ v :: set.words, signer h ∈ signers head (ws ++ [v.fresh]) := fun h hh => by
    refine List.mem_dedup.mpr (List.mem_map.mpr ⟨h.fresh, mem_verifying.mpr ⟨?_, hverify h hh⟩, rfl⟩)
    rcases List.mem_cons.mp hh with rfl | hh
    · simp
    · exact List.mem_append_left _ (mem_verifying.mp (hmem h hh)).1
  have hin : ∀ h ∈ v :: set.words,
      signer h ∈ (set.insert v v.fresh.at_).1.words.map signer := fun h hh => by
    by_contra hnot
    have hfull := (hl.rest h hh hnot).1
    have hsub : (signer h :: (set.insert v v.fresh.at_).1.words.map signer) ⊆
        signers head (ws ++ [v.fresh]) := by
      refine List.cons_subset.mpr ⟨hlisted h hh, fun k hk => ?_⟩
      obtain ⟨x, hx, rfl⟩ := List.mem_map.mp hk
      exact hlisted x (hl.sub x hx)
    have hlength := ((List.nodup_cons.mpr ⟨hnot, hl.nodup⟩).subperm hsub).length_le
    simp only [List.length_cons, List.length_map] at hlength
    omega
  -- Whoever is held lasts as long as any of its signer's before it, and as the new one.
  have hlasts : ∀ h ∈ v :: set.words, ∀ x ∈ (set.insert v v.fresh.at_).1.words,
      signer h = signer x → h.fresh.until_ ≤ x.fresh.until_ := fun h hh x hx heq => by
    have hle := (order_le_iff (hverify h hh) (hverify x (hl.sub x hx))).mp (hl.best x hx h hh heq)
    rcases hle with hlt | ⟨-, hle⟩
    · -- `h` is not current when the new word was signed, and `x` is.
      have hout : h.fresh.isCurrent v.fresh.at_ = false := by
        cases hc : h.fresh.isCurrent v.fresh.at_
        · rfl
        · rw [hc] at hlt
          exact absurd hlt (by cases x.fresh.isCurrent v.fresh.at_ <;> decide)
      rcases List.mem_cons.mp hh with rfl | hheld
      · rw [isCurrent_at hv] at hout
        cases hout
      · rcases List.mem_cons.mp (hl.sub x hx) with rfl | hx
        · by_contra hlong
          obtain ⟨hf, hok⟩ := mem_verifying.mp (hmem h hheld)
          have hskew := hfollows _ hf hok hv heq (Int64.not_le.mp hlong)
          have hcurrent := Fresh.isCurrent_iff.mp (isCurrent_at hv)
          rw [Int64.not_le, Int64.lt_iff_toInt_lt] at hlong
          have hskew' : h.fresh.isCurrent x.fresh.at_ = true := by
            rw [Fresh.isCurrent, Bool.and_eq_true, decide_eq_true_eq, decide_eq_true_eq]
            refine ⟨hskew, Int64.le_iff_toInt_le.mpr ?_⟩
            omega
          rw [hskew'] at hout
          cases hout
        · rw [List.inj_on_of_nodup_map ht.1 hheld hx heq]
          exact Int64.le_refl _
    · exact hle
  intro f hf
  obtain ⟨hf, hok⟩ := mem_verifying.mp hf
  obtain ⟨h, hh, hsigner, hle⟩ : ∃ h ∈ v :: set.words, signer h = f.directory ∧
      f.until_ ≤ h.fresh.until_ := by
    rcases List.mem_append.mp hf with hf | hf
    · obtain ⟨h, hh, hs⟩ := hk f (mem_verifying.mpr ⟨hf, hok⟩)
      exact ⟨h, List.mem_cons_of_mem _ hh, hs⟩
    · obtain rfl := List.mem_singleton.mp hf
      exact ⟨v, List.mem_cons_self, rfl, Int64.le_refl _⟩
  obtain ⟨x, hx, heq⟩ := List.mem_map.mp (hin h hh)
  exact ⟨x, hx, heq.trans hsigner, Int64.le_trans hle (hlasts h hh x hx heq.symm)⟩

/-- In such an order, every signer is kept with a word that lasts as long as any of theirs. -/
theorem keeps_fromUnverified (horder : InOrder head ws)
    (hroom : (signers head ws).length ≤ MAX_FRESH_SET) :
    Keeps head ws (fromUnverified ws head).words := by
  induction ws using List.reverseRecOn with
  | nil => exact fun f hf => absurd hf List.not_mem_nil
  | append_singleton ws f ih =>
    obtain ⟨hws, -, hfollows⟩ := List.pairwise_append.mp horder
    have hfewer : (signers head ws).length ≤ (signers head (ws ++ [f])).length := by
      refine ((List.nodup_dedup _).subperm fun k hk => ?_).length_le
      obtain ⟨g, hg, rfl⟩ := List.mem_map.mp (List.mem_dedup.mp hk)
      exact List.mem_dedup.mpr (List.mem_map_of_mem (mem_verifying.mpr
        ((mem_verifying.mp hg).imp_left (List.mem_append_left _))))
    have hk := ih hws (hfewer.trans hroom)
    rw [fromUnverified_concat]
    split
    · rename_i v hv
      obtain ⟨hok, rfl⟩ := Fresh.toVerified_eq_ok.mp hv
      exact keeps_insert hk (tidy_fromUnverified ws head) hok (fun h hh => mem_of_fromUnverified hh)
        (fun g hg => hfollows g hg _ (List.mem_singleton_self _)) hroom
    · rename_i e he
      intro g hg
      obtain ⟨hg, hok⟩ := mem_verifying.mp hg
      rcases List.mem_append.mp hg with hg | hg
      · exact hk g (mem_verifying.mpr ⟨hg, hok⟩)
      · obtain rfl := List.mem_singleton.mp hg
        have hne := Fresh.toVerified_eq_ok (v := ⟨g, head, hok⟩).mpr ⟨hok, rfl⟩
        rw [he] at hne
        cases hne

theorem exists_longest (horder : InOrder head ws) (hroom : (signers head ws).length ≤ MAX_FRESH_SET)
    (hf : f ∈ verifying head ws) : ∃ v ∈ (fromUnverified ws head).words, signer v = f.directory ∧
      Longest head ws v.fresh := by
  obtain ⟨v, hv, hsigner, -⟩ := keeps_fromUnverified horder hroom f hf
  refine ⟨v, hv, hsigner, mem_of_fromUnverified hv, fun g hg hgv => ?_⟩
  obtain ⟨u, hu, heq, hle⟩ := keeps_fromUnverified horder hroom g hg
  have hsame : u = v := List.inj_on_of_nodup_map (tidy_fromUnverified ws head).1 hu hv
    (heq.trans hgv)
  exact hsame ▸ hle

/-! ## In any order -/

/-- Each word may follow every other, and words of a signer that last equally long are dated alike. -/
def AnyOrder (head : SignedPolicyHead) (ws : List Fresh) : Prop :=
  ∀ f ∈ ws, ∀ g ∈ ws, Follows head f g ∧ (f.verify head = .ok () → g.verify head = .ok () →
    f.directory = g.directory → f.until_ = g.until_ → f.at_ = g.at_)

theorem AnyOrder.inOrder (h : AnyOrder head ws) : InOrder head ws :=
  List.pairwise_iff_forall_sublist.mpr fun hsub =>
    (h _ (hsub.subset (by simp)) _ (hsub.subset (by simp))).1

theorem vouching_isSome {host : NodeId} {now : Int64} : (set.vouching head host now).isSome = true ↔
    ∃ v ∈ set.words, v.fresh.vouches head host now = .ok () := by
  simp [vouching]

/-- The set vouches when a longest word of the list does. -/
theorem vouching_fromUnverified (horder : AnyOrder head ws)
    (hroom : (signers head ws).length ≤ MAX_FRESH_SET) (host : NodeId) (now : Int64) :
    ((fromUnverified ws head).vouching head host now).isSome = true ↔
      ∃ f, Longest head ws f ∧ f.vouches head host now = .ok () := by
  rw [vouching_isSome]
  constructor
  · rintro ⟨v, hv, hvouches⟩
    obtain ⟨u, hu, heq, hlongest⟩ := exists_longest horder.inOrder hroom (mem_of_fromUnverified hv)
    have hsame : u = v := List.inj_on_of_nodup_map (tidy_fromUnverified ws head).1 hu hv heq
    exact ⟨v.fresh, hsame ▸ hlongest, hvouches⟩
  · rintro ⟨f, hf, hvouches⟩
    obtain ⟨v, hv, hsigner, hlongest⟩ := exists_longest horder.inOrder hroom hf.1
    obtain ⟨hin, hok⟩ := mem_verifying.mp hf.1
    obtain ⟨hin', hok'⟩ := mem_verifying.mp hlongest.1
    have huntil : v.fresh.until_ = f.until_ :=
      Int64.le_antisymm (hf.2 _ hlongest.1 hsigner) (hlongest.2 _ hf.1 hsigner.symm)
    have hat := (horder _ hin' _ hin).2 hok' hok hsigner huntil
    obtain ⟨-, hcurrent, hother⟩ := Fresh.vouches_eq_ok.mp hvouches
    refine ⟨v, hv, Fresh.vouches_eq_ok.mpr ⟨hok', ?_, ?_⟩⟩
    · rw [Fresh.isCurrent, hat, huntil]
      exact hcurrent
    · rw [show v.fresh.directory = f.directory from hsigner]
      exact hother

theorem longest_perm {ws' : List Fresh} (h : ws.Perm ws') : Longest head ws f ↔ Longest head ws' f := by
  have hmem : ∀ g, g ∈ verifying head ws ↔ g ∈ verifying head ws' := fun g => (h.filter _).mem_iff
  simp only [Longest, hmem]

/-! ## What a set wrote -/

theorem fromUnverified_iter {held : List VerifiedFresh} (ht : Tidy held) (head : SignedPolicyHead) :
    (fromUnverified (held.map (·.fresh)) head).words =
      held.filter fun v => isOk (v.fresh.verify head) := by
  induction held using List.reverseRecOn with
  | nil => rfl
  | append_singleton held v ih =>
    obtain ⟨hnodup, hlength⟩ := ht
    rw [List.map_append, List.map_singleton, List.nodup_append] at hnodup
    rw [List.length_append, List.length_singleton] at hlength
    have hread := ih ⟨hnodup.1, by omega⟩
    rw [List.map_append, List.map_singleton, fromUnverified_concat, List.filter_append]
    split
    · rename_i u hu
      obtain ⟨hok, hfresh⟩ := Fresh.toVerified_eq_ok.mp hu
      obtain rfl : u = v := by
        cases u
        cases v
        simp_all
      have hsigner : signer u ∉ (fromUnverified (held.map (·.fresh)) head).words.map signer := by
        rw [hread]
        intro hin
        obtain ⟨x, hx, heq⟩ := List.mem_map.mp hin
        exact hnodup.2.2 _ (List.mem_map_of_mem (List.mem_filter.mp hx).1) _
          (List.mem_singleton_self _) heq
      have hroom : (fromUnverified (held.map (·.fresh)) head).words.length < MAX_FRESH_SET := by
        rw [hread]
        have := List.length_filter_le (fun v : VerifiedFresh => isOk (v.fresh.verify head)) held
        omega
      have hi := inserts (fromUnverified (held.map (·.fresh)) head) u u.fresh.at_
      generalize ((fromUnverified (held.map (·.fresh)) head).insert u u.fresh.at_).1.words = after,
        ((fromUnverified (held.map (·.fresh)) head).insert u u.fresh.at_).2 = kept at hi ⊢
      cases hi with
      | keep hmem hs => exact absurd (List.mem_map.mpr ⟨_, hmem, hs.symm⟩) hsigner
      | replace hi hs =>
        exact absurd (List.mem_map.mpr ⟨_, List.mem_of_getElem? hi, hs.symm⟩) hsigner
      | refuse _ hfull => exact absurd hroom (by omega)
      | displace _ _ hfull => exact absurd hroom (by omega)
      | join => simp [hread, hok, isOk]
    · rename_i e he
      have hnot : isOk (v.fresh.verify head) = false := by
        rw [Bool.eq_false_iff]
        intro hok
        rw [isOk_unit_iff] at hok
        rw [Fresh.toVerified_eq_ok (v := ⟨v.fresh, head, hok⟩) |>.mpr ⟨hok, rfl⟩] at he
        cases he
      simp [hread, hnot]

omit [Crypto] in
theorem compact_arr_eq (xs : List Json) : ∃ cs, Json.compact (.arr xs) = '[' :: (cs ++ [']']) := by
  have : ∀ xs : List Json, ∃ cs, Json.compactElems xs = cs ++ [']'] := fun xs => by
    induction xs with
    | nil => exact ⟨[], rfl⟩
    | cons x xs ih =>
      cases xs with
      | nil => exact ⟨_, rfl⟩
      | cons y ys =>
        obtain ⟨cs, h⟩ := ih
        exact ⟨x.compact ++ ',' :: cs, by simp [Json.compactElems, h]⟩
  obtain ⟨cs, h⟩ := this xs
  exact ⟨cs, by rw [Json.compact, h]⟩

omit [Crypto] in
/-- The words of the file are those written to it. -/
theorem words_text (ws : List Fresh) : Freshness.words (Freshness.text ws) = ws := by
  obtain ⟨cs, hcs⟩ : ∃ cs, jsonText ws = '[' :: (cs ++ [']']) := compact_arr_eq _
  have htrim : trim (Freshness.text ws) = jsonText ws := by
    rw [Freshness.text, hcs]
    exact trim_line (by decide) (by decide)
  rw [Freshness.words, htrim, (reads_list fun f _ => reads_fresh f).text, Option.getD_some]

/-- What is kept of a list that is read back. -/
theorem kept_longest (ws : List Fresh) (head : SignedPolicyHead) :
    (∀ v ∈ (fromUnverified ws head).words, v.fresh ∈ verifying head ws) ∧
    Tidy (fromUnverified ws head).words ∧
    (InOrder head ws → (signers head ws).length ≤ MAX_FRESH_SET → ∀ f ∈ verifying head ws,
      ∃ v ∈ (fromUnverified ws head).words, signer v = f.directory ∧ Longest head ws v.fresh) ∧
    (AnyOrder head ws → (signers head ws).length ≤ MAX_FRESH_SET → ∀ ws', ws.Perm ws' →
      ∀ host now, ((fromUnverified ws head).vouching head host now).isSome =
        ((fromUnverified ws' head).vouching head host now).isSome) ∧
    ∀ history : List (VerifiedFresh × Int64),
      Freshness.words (Freshness.text (empty.insertAll history).iter) = (empty.insertAll history).iter ∧
      (fromUnverified (empty.insertAll history).iter head).words =
        (empty.insertAll history).words.filter fun v => isOk (v.fresh.verify head) := by
  refine ⟨fun v hv => mem_of_fromUnverified hv, tidy_fromUnverified ws head,
    fun horder hroom f hf => exists_longest horder hroom hf, fun horder hroom ws' hperm host now => ?_,
    fun history => ⟨words_text _, fromUnverified_iter (tidy_insertAll tidy_empty history) head⟩⟩
  have horder' : AnyOrder head ws' := fun f hf g hg =>
    horder f (hperm.mem_iff.mpr hf) g (hperm.mem_iff.mpr hg)
  have hroom' : (signers head ws').length ≤ MAX_FRESH_SET := by
    have hsame : (signers head ws').Perm (signers head ws) := ((hperm.filter _).map _).symm.dedup
    rw [hsame.length_eq]
    exact hroom
  rw [Bool.eq_iff_iff, vouching_fromUnverified horder hroom, vouching_fromUnverified horder' hroom']
  simp only [longest_perm hperm]

/-- Of two words of one signer, the second is kept if it ranks higher when it was signed. -/
theorem iter_pair (hf : f.verify head = .ok ()) (hg : g.verify head = .ok ())
    (hsame : f.directory = g.directory) : (fromUnverified [f, g] head).iter =
      if rankLe (rank g.at_ g) (rank g.at_ f) then [f] else [g] := by
  have hverified : ∀ {x : Fresh} (h : x.verify head = .ok ()),
      x.toVerified head = .ok ⟨x, head, h⟩ := fun h => Fresh.toVerified_eq_ok.mpr ⟨h, rfl⟩
  simp only [fromUnverified, List.foldl_cons, List.foldl_nil, hverified hf, hverified hg]
  by_cases hrank : rankLe (rank g.at_ g) (rank g.at_ f) = true
  · simp [insert, empty, hsame, hrank, MAX_FRESH_SET, iter]
  · simp [insert, empty, hsame, hrank, MAX_FRESH_SET, iter]

end FreshSet

end

section Sample

attribute [local instance] Crypto.plain

/-- Two words of one directory, of about the same time: the one that ends last is kept, and in either
order the same hosts are vouched for. -/
theorem kept_longest_sample : ∃ f g : Fresh, f.until_ = 1900 ∧ g.until_ = 1950 ∧
    (∃ v ∈ (FreshSet.fromUnverified [f, g] sampleSigned.head).words, 1950 ≤ v.fresh.until_) ∧
    ∀ host now, ((FreshSet.fromUnverified [f, g] sampleSigned.head).vouching
        sampleSigned.head host now).isSome =
      ((FreshSet.fromUnverified [g, f] sampleSigned.head).vouching
        sampleSigned.head host now).isSome := by
  obtain ⟨f, hf⟩ : ∃ f, Fresh.sign (3 : UInt8) sampleSigned.head 1000 1900 = .ok f := ⟨_, rfl⟩
  obtain ⟨g, hg⟩ : ∃ g, Fresh.sign (3 : UInt8) sampleSigned.head 1050 1950 = .ok g := ⟨_, rfl⟩
  obtain ⟨-, -, hfat, hfuntil⟩ := Fresh.of_sign hf
  obtain ⟨hg, hgdir, hgat, hguntil⟩ := Fresh.of_sign hg
  have horder : FreshSet.AnyOrder sampleSigned.head [f, g] := by
    intro x hx y hy
    simp only [List.mem_cons, List.not_mem_nil, or_false] at hx hy
    rcases hx with rfl | rfl <;> rcases hy with rfl | rfl
    · exact ⟨fun _ _ _ h => absurd h Int64.lt_irrefl, fun _ _ _ _ => rfl⟩
    · refine ⟨fun _ _ _ _ => by rw [hfat, hgat]; decide, fun _ _ _ h => ?_⟩
      rw [hfuntil, hguntil] at h
      exact absurd h (by decide)
    · refine ⟨fun _ _ _ _ => by rw [hfat, hgat]; decide, fun _ _ _ h => ?_⟩
      rw [hfuntil, hguntil] at h
      exact absurd h (by decide)
    · exact ⟨fun _ _ _ h => absurd h Int64.lt_irrefl, fun _ _ _ _ => rfl⟩
  have hroom : (FreshSet.signers sampleSigned.head [f, g]).length ≤ MAX_FRESH_SET := by
    have htwo : (FreshSet.signers sampleSigned.head [f, g]).length ≤ 2 :=
      (List.dedup_sublist _).length_le.trans
        (by rw [List.length_map]; exact List.length_filter_le _ _)
    exact htwo.trans (by decide)
  have hmem : g ∈ FreshSet.verifying sampleSigned.head [f, g] :=
    FreshSet.mem_verifying.mpr ⟨by simp, hg⟩
  obtain ⟨-, -, hlongest, hany, -⟩ := FreshSet.kept_longest [f, g] sampleSigned.head
  obtain ⟨v, hv, hsigner, -, hlong⟩ := hlongest horder.inOrder hroom g hmem
  refine ⟨f, g, hfuntil, hguntil, ⟨v, hv, ?_⟩, hany horder hroom [g, f] (List.Perm.swap ..)⟩
  rw [← hguntil]
  exact hlong g hmem hsigner.symm

/-- Two words of one directory: the one that ends last, read first, is lost. -/
theorem not_any_order : ¬∀ (ws ws' : List Fresh) (head : SignedPolicyHead), ws.Perm ws' →
    ∀ host now, ((FreshSet.fromUnverified ws head).vouching head host now).isSome =
      ((FreshSet.fromUnverified ws' head).vouching head host now).isSome := by
  intro hall
  have hearly : ∃ f, Fresh.sign (3 : UInt8) sampleSigned.head 1000 1900 = .ok f := ⟨_, rfl⟩
  have hlate : ∃ g, Fresh.sign (3 : UInt8) sampleSigned.head 5000 5900 = .ok g := ⟨_, rfl⟩
  obtain ⟨f, hf⟩ := hearly
  obtain ⟨g, hg⟩ := hlate
  obtain ⟨hf, hfdir, hfat, hfuntil⟩ := Fresh.of_sign hf
  obtain ⟨hg, hgdir, hgat, hguntil⟩ := Fresh.of_sign hg
  have hversion : f.version = g.version :=
    (Fresh.verify_eq_ok.mp hf).2.2.1.2.1.trans (Fresh.verify_eq_ok.mp hg).2.2.1.2.1.symm
  have hsame := hall [f, g] [g, f] sampleSigned.head (List.Perm.swap ..) (sampleNode 2) 5500
  have hfirst := FreshSet.iter_pair hf hg (hfdir.trans hgdir.symm)
  have hsecond := FreshSet.iter_pair hg hf (hgdir.trans hfdir.symm)
  have hvouches : g.vouches sampleSigned.head (sampleNode 2) 5500 = .ok () := by
    refine Fresh.vouches_eq_ok.mpr ⟨hg, ?_, ?_⟩
    · rw [Fresh.isCurrent, hgat, hguntil]
      decide
    · rw [hgdir]
      decide
  have hlapsed : f.vouches sampleSigned.head (sampleNode 2) 5500 ≠ .ok () := by
    intro h
    have hcurrent := (Fresh.vouches_eq_ok.mp h).2.1
    rw [Fresh.isCurrent, hfat, hfuntil] at hcurrent
    exact absurd hcurrent (by decide)
  have hlater : ¬FreshSet.rankLe (FreshSet.rank g.at_ g) (FreshSet.rank g.at_ f) = true := by
    simp only [FreshSet.rank, FreshSet.rankLe, Fresh.isCurrent, hfat, hfuntil, hgat, hguntil, hversion]
    simp
  have hearlier : ¬FreshSet.rankLe (FreshSet.rank f.at_ f) (FreshSet.rank f.at_ g) = true := by
    simp only [FreshSet.rank, FreshSet.rankLe, Fresh.isCurrent, hfat, hfuntil, hgat, hguntil, hversion]
    simp
    decide
  rw [if_neg hlater] at hfirst
  rw [if_neg hearlier] at hsecond
  rw [FreshSet.iter] at hfirst hsecond
  rw [FreshSet.vouching, FreshSet.vouching, hfirst, hsecond] at hsame
  rw [List.find?_cons_of_pos (by simp [hvouches]), List.find?_cons_of_neg (by simpa using hlapsed)] at hsame
  cases hsame

end Sample

end Wires
