import Wires.Proof.Edit
import Wires.Proof.Trust

/-!
# Who can be removed

A ban of a person refuses just the people of the same issuer and email
(`bars_insert`), and `wires remove` makes one of what it is given, trimmed and
in lowercase, where that looks like an email (`parseWho_eq_ok`). So it removes
a person it admits exactly when their email and issuer can be given as they
stand (`removable_iff`).
-/

namespace Wires

/-! ## Names -/

theorem trim_of_forall {cs : List Char} (h : ∀ c ∈ cs, isWhitespace c = false) : trim cs = cs := by
  have hdrop : cs.dropWhile isWhitespace = cs := List.dropWhile_eq_self_iff.mpr fun hl => by
    simp [h _ (List.getElem_mem hl)]
  rw [trim, hdrop, List.rdropWhile_eq_self_iff]
  intro hl
  simp [h _ (List.getLast_mem hl)]

theorem trim_sublist (cs : List Char) : (trim cs).Sublist cs :=
  (List.rdropWhile_prefix ..).sublist.trans (List.dropWhile_sublist _)

/-- A name whose trimmed form is the same in lowercase has no whitespace to trim. -/
theorem trim_of_asciiLower {s : String}
    (h : asciiLower (String.ofList (trim (trim s.toList))) = asciiLower s) : trim s.toList = s.toList := by
  have hlength : (trim (trim s.toList)).length = s.toList.length := by
    have := congrArg (fun t : String => t.toList.length) h
    simpa [asciiLower] using this
  have hinner := (trim_sublist (trim s.toList)).length_le
  exact (trim_sublist s.toList).eq_of_length_le (by omega)

/-- What of a person's email and issuer `wires remove` takes as it stands. -/
def Removable (email : String) (issuer : Issuer) : Prop :=
  '=' ∉ email.toList ∧ (∀ c ∈ email.toList, isWhitespace c = false) ∧
    (∃ loc dom, splitOnce '@' email.toList = some (loc, dom) ∧ loc ≠ [] ∧ dom ≠ []) ∧
    String.ofList (trim issuer.toList) = issuer

theorem parseWho_eq_ok [Web] {resolve : String → Except Anyhow Named} {assumed : Except Anyhow Issuer}
    {email : String} {issuer : Issuer} {who : Who} :
    parseWho resolve assumed email (some issuer) = .ok who ↔
      '=' ∉ trim email.toList ∧ (∀ c ∈ trim email.toList, isWhitespace c = false) ∧
      (∃ loc dom, splitOnce '@' (trim email.toList) = some (loc, dom) ∧ loc ≠ [] ∧ dom ≠ []) ∧
      trim issuer.toList ≠ [] ∧ who = .person (Person.new (String.ofList (trim issuer.toList))
        (String.ofList (trim email.toList))) := by
  have hspace : ∀ cs : List Char,
      cs.any isWhitespace = true ↔ ¬∀ c ∈ cs, isWhitespace c = false := fun cs => by simp
  unfold parseWho
  simp only [issuerOf, hspace]
  split_ifs with hemail hissuer
  · simp [hissuer]
  · simp only [ok_bind, bind_eq_ok, ensure_eq_ok, exists_const, pure_eq_ok, not_or, not_not]
    constructor
    · rintro ⟨⟨hloc, hdom, hplain⟩, rfl⟩
      refine ⟨hemail.2, hplain, ?_, hissuer, rfl⟩
      cases hsplit : splitOnce '@' (trim email.toList) with
      | none => simp [hsplit] at hloc
      | some p =>
        rw [hsplit] at hloc hdom
        exact ⟨p.1, p.2, rfl, hloc, hdom⟩
    · rintro ⟨-, hplain, ⟨loc, dom, hsplit, hloc, hdom⟩, -, rfl⟩
      rw [hsplit]
      exact ⟨⟨hloc, hdom, hplain⟩, rfl⟩
  · simp only [bind_eq_ok, ensure_eq_ok, exists_const, false_and, false_iff]
    rintro ⟨heq, -, ⟨loc, dom, hsplit, -⟩, -⟩
    exact hemail ⟨mem_of_splitOnce hsplit, heq⟩

/-! ## A ban of a person -/

/-- `q` refuses everyone of an issuer and an email, in whatever letter case, and everyone else just as
`p` does. -/
def Bars (p q : Policy) (issuer : Issuer) (email : String) : Prop :=
  (∀ node pr e, pr.issuer = issuer → pr.email = some e → eqIgnoreCase e email = true →
    checkAdmitted q node pr = .error .banned) ∧
  ∀ node pr, (pr.issuer = issuer → ∀ e, pr.email = some e → eqIgnoreCase e email = false) →
    checkAdmitted q node pr = checkAdmitted p node pr

variable {p q : Policy} {issuer : Issuer} {email : String}

theorem matches_new (pr : Principal) : (Person.new issuer email).matches pr = true ↔
    pr.issuer = issuer ∧ ∃ e, pr.email = some e ∧
      asciiLower e = asciiLower (String.ofList (trim email.toList)) := by
  simp only [Person.matches, Person.new, eqIgnoreCase, asciiLower_asciiLower, Option.any_eq_true,
    Bool.and_eq_true, decide_eq_true_eq]
  exact and_congr_left' decide_eq_true_iff

theorem bansPerson_insert (person : Person) (pr : Principal) :
    { p with personBans := p.personBans.insert person () }.bansPerson pr = true ↔
      person.matches pr = true ∨ p.bansPerson pr = true := by
  simp only [Policy.bansPerson, List.any_eq_true, SortedMap.mem_keys_insert]
  constructor
  · rintro ⟨k, rfl | hk, hm⟩
    · exact .inl hm
    · exact .inr ⟨k, hk, hm⟩
  · rintro (hm | ⟨k, hk, hm⟩)
    · exact ⟨person, .inl rfl, hm⟩
    · exact ⟨k, .inr hk, hm⟩

theorem validate_insert {person : Person} {base : Policy} {ttl : Ttl} {now : Int64}
    (hv : p.validate = .ok ()) (hp : Policy.validatePersonBan person = .ok ()) :
    ({ p with personBans := p.personBans.insert person () }.following base ttl now).validate =
      .ok () := by
  simp only [Policy.validate, bind_eq_ok, forEach_eq_ok, exists_const] at hv ⊢
  obtain ⟨u, hrepeat, v, hbanned, hpersons, hrest⟩ := hv
  refine ⟨u, hrepeat, v, hbanned, fun k hk => ?_, hrest⟩
  rcases SortedMap.mem_keys_insert.mp hk with rfl | hk
  · exact hp
  · exact hpersons k hk

/-- A ban of someone refuses them, and changes nothing for anyone else. -/
theorem bars_insert (base : Policy) (ttl : Ttl) (now : Int64) (htrim : trim email.toList = email.toList) :
    Bars p ({ p with personBans := p.personBans.insert (Person.new issuer email) () }.following base
      ttl now) issuer email := by
  have hmatches : ∀ pr, (Person.new issuer email).matches pr = true ↔
      pr.issuer = issuer ∧ ∃ e, pr.email = some e ∧ eqIgnoreCase e email = true := fun pr => by
    rw [matches_new, htrim, String.ofList_toList]
    simp [eqIgnoreCase]
  generalize hq : ({ p with
    personBans := p.personBans.insert (Person.new issuer email) () } : Policy).following base ttl now = q
  have hbans : ∀ pr, q.bansPerson pr = true ↔
      (Person.new issuer email).matches pr = true ∨ p.bansPerson pr = true := fun pr => by
    rw [← hq]
    exact bansPerson_insert _ pr
  have hnode : ∀ node, q.bansNode node = p.bansNode node := fun node => by
    rw [← hq]
    rfl
  have hrole : ∀ pr, q.anyRoleAdmits pr = p.anyRoleAdmits pr := fun pr => by
    rw [← hq]
    rfl
  refine ⟨fun node pr e hissuer he heq => ?_, fun node pr hother => ?_⟩
  · have hbanned : q.bansPerson pr = true := (hbans pr).mpr (.inl ((hmatches pr).mpr ⟨hissuer, e, he, heq⟩))
    by_cases hn : q.bansNode node = true
    · simp [checkAdmitted, hn, ensure]
    · simp [checkAdmitted, hn, he, hbanned, ensure]
  · have hsame : q.bansPerson pr = p.bansPerson pr := by
      rw [Bool.eq_iff_iff, hbans, or_iff_right]
      intro hm
      obtain ⟨hissuer, e, he, heq⟩ := (hmatches pr).mp hm
      rw [hother hissuer e he] at heq
      cases heq
    rw [checkAdmitted, checkAdmitted, hnode, hsame, hrole]

/-! ## Removing someone -/

/-- `wires remove` of this text and issuer, with nothing else going on, answers `Ok` at this time with
this policy. -/
def Removes [Crypto] [Web] (path : String) (root : NodeIdentity) (me : NodeId) (file : PolicyFile)
    (resolve : String → Except Anyhow Named) (assumed : Except Anyhow Issuer) (text : String)
    (issuer : Issuer) (ttl : Ttl) (now : Int64) (next : Held (nodeId root)) : Prop :=
  ∃ who, parseWho resolve assumed text (some issuer) = .ok who ∧
    ∃ (c : Candidate) (s : Admin (nodeId root) Unit), run (Admin.step path root me) (.start file)
      (Admin.beginning () (.remove who) ttl ++ Admin.settling () now c) = some s ∧
      s.stage () = .done (.remove who) ttl (.ok next)

section

variable [Crypto] {path : String} {root : NodeIdentity} {me : NodeId} {file : PolicyFile}
  {h next : Held (nodeId root)}

/-- A command that answers `Ok` with nothing else going on edited the policy stored. -/
theorem edited_alone {es : List (EditEvent Unit)} {s : Admin (nodeId root) Unit} {edit : PolicyEdit}
    {ttl : Ttl} (hread : read path (nodeId root) file = .ok (some h))
    (hrun : run (Admin.step path root me) (.start file) es = some s)
    (hdone : s.stage () = .done edit ttl (.ok next)) :
    EditedBy edit ttl h.policy next.policy ∧ next.version.toNat = h.version.toNat + 1 := by
  obtain ⟨hok, -⟩ := Admin.edits_linearize path root me file (some h) hread es s hrun
  obtain ⟨base, hchanges, hversion, hedit⟩ := hok () edit ttl next hdone
  obtain rfl : h = base := by
    cases hcs : Admin.changes path root me (.start file) es with
    | nil => simp [hcs, Admin.changesOf] at hchanges
    | cons c cs =>
      have hbefore := Admin.before_of_changes hcs
      rw [hcs] at hchanges
      simp only [Admin.changesOf, decide_true, List.filter_true, List.map_cons, List.cons.injEq,
        Prod.mk.injEq] at hchanges
      rw [hchanges.1.1] at hbefore
      simpa [Admin.stored, Admin.start, Adopt.start, hread, Except.toOption] using hbefore.symm
  exact ⟨hedit, hversion⟩

/-- Who has been admitted is of an issuer that is trusted. -/
theorem trusted_of_admitted {pr : Principal} {node : NodeId}
    (hadmitted : checkAdmitted h.policy node pr = .ok ()) :
    h.policy.issuers.containsKey pr.issuer = true ∧ ¬isBlank pr.issuer = true := by
  obtain ⟨-, -, -, hadmits⟩ := checkAdmitted_eq_ok.mp hadmitted
  have hvalid := h.validate
  simp only [Policy.validate, bind_eq_ok, forEach_eq_ok, exists_const] at hvalid
  obtain ⟨-, -, -, -, -, hissuers, hroles, -⟩ := hvalid
  obtain ⟨ms, hms, hmatch⟩ := List.any_eq_true.mp hadmits
  obtain ⟨e, he, rfl⟩ := List.mem_map.mp hms
  obtain ⟨m, hm, hissuer⟩ : ∃ m ∈ e.2, pr.issuer = m.issuer := by
    simp only [admits, Bool.and_eq_true, List.any_eq_true] at hmatch
    obtain ⟨-, m, hm, hmatches⟩ := hmatch
    refine ⟨m, hm, ?_⟩
    simp only [Matcher.matches, Bool.and_eq_true, decide_eq_true_eq] at hmatches
    exact hmatches.1.1.1
  have hrole := hroles e he
  simp only [Policy.validateRole, bind_eq_ok, forEach_eq_ok, ensure_eq_ok, exists_const] at hrole
  have htrusted := (hrole.2 m hm).2
  rw [hissuer]
  refine ⟨htrusted, ?_⟩
  obtain ⟨config, hconfig⟩ := Option.isSome_iff_exists.mp htrusted
  have hentry := hissuers _ (SortedMap.get?_eq_some_iff.mp hconfig)
  simp only [Policy.validateIssuer, bind_eq_ok, ensure_eq_ok, exists_const] at hentry
  exact hentry.1

/-- Someone admitted can be banned, once. -/
theorem change_remove {pr : Principal} {email : String} {node : NodeId}
    (hemail : pr.email = some email) (hadmitted : checkAdmitted h.policy node pr = .ok ())
    (htrim : trim email.toList = email.toList) :
    (PolicyEdit.remove (.person (Person.new pr.issuer email))).change h.policy = .ok { h.policy with
      personBans := h.policy.personBans.insert (Person.new pr.issuer email) () } := by
  have hnew : ¬h.policy.personBans.containsKey (Person.new pr.issuer email) = true := by
    intro hkey
    obtain ⟨-, -, hban, -⟩ := checkAdmitted_eq_ok.mp hadmitted
    have hmatches : (Person.new pr.issuer email).matches pr = true :=
      (matches_new pr).mpr ⟨rfl, email, hemail, by rw [htrim, String.ofList_toList]⟩
    have hbanned : h.policy.bansPerson pr = true :=
      List.any_eq_true.mpr ⟨_, SortedMap.containsKey_iff.mp hkey, hmatches⟩
    rw [hban] at hbanned
    cases hbanned
  simp only [PolicyEdit.change, ensure_of hnew, ok_bind]
  rfl

omit [Crypto] in
theorem validatePersonBan_new {issuer : Issuer} {email : String} (hissuer : ¬isBlank issuer = true)
    (hemail : '@' ∈ email.toList) (htrim : trim email.toList = email.toList) :
    Policy.validatePersonBan (Person.new issuer email) = .ok () := by
  have hblank : ¬isBlank (asciiLower email) = true := by
    intro hblank
    have hat : '@' ∈ (asciiLower email).toList := by
      rw [asciiLower, String.toList_ofList]
      exact (mem_map_toLower (by decide)).mpr hemail
    have hspace : isWhitespace '@' = true := List.all_eq_true.mp hblank '@' hat
    revert hspace
    decide
  simp [Policy.validatePersonBan, Person.new, htrim, hissuer, hblank, asciiLower_asciiLower]

/-- Who is refused after a ban, and was not before, is who the ban names. -/
theorem matches_of_barred {pr : Principal} {email : String} {node : NodeId} {person : Person}
    {q p : Policy} {ttl : Ttl} {now : Int64} (hemail : pr.email = some email)
    (hadmitted : checkAdmitted h.policy node pr = .ok ())
    (hq : (PolicyEdit.remove (.person person)).change h.policy = .ok q)
    (hp : p = q.following h.policy ttl now) (hbarred : checkAdmitted p node pr = .error .banned) :
    person.matches pr = true := by
  simp only [PolicyEdit.change, bind_eq_ok, ensure_eq_ok, exists_const, pure_eq_ok] at hq
  obtain ⟨-, rfl⟩ := hq
  obtain ⟨hnode, -, hban, hrole⟩ := checkAdmitted_eq_ok.mp hadmitted
  by_contra hne
  have hkept : p.bansPerson pr = false := by
    rw [← Bool.not_eq_true, hp]
    intro hbans
    rcases (bansPerson_insert person pr).mp hbans with hm | hm
    · exact hne hm
    · rw [hban] at hm
      cases hm
  have hok : checkAdmitted p node pr = .ok () :=
    checkAdmitted_eq_ok.mpr ⟨hp ▸ hnode, by simp [hemail], hkept, hp ▸ hrole⟩
  rw [hbarred] at hok
  cases hok

/-- The removal of an admitted person, with nothing else going on. -/
theorem exists_run_remove {pr : Principal} {email : String} {node : NodeId}
    (hread : read path (nodeId root) file = .ok (some h)) (hemail : pr.email = some email)
    (hadmitted : checkAdmitted h.policy node pr = .ok ()) (htrim : trim email.toList = email.toList)
    (hat : '@' ∈ email.toList) (ttl : Ttl) (now : Int64) (hversion : h.version.toNat + 1 < 2 ^ 64) :
    ∃ next : Held (nodeId root), next.policy = ({ h.policy with
        personBans := h.policy.personBans.insert (Person.new pr.issuer email) () }.following h.policy
          ttl now) ∧
      ∃ (c : Candidate) (s : Admin (nodeId root) Unit), run (Admin.step path root me) (.start file)
        (Admin.beginning () (.remove (.person (Person.new pr.issuer email))) ttl ++
          Admin.settling () now c) = some s ∧
        s.stage () = .done (.remove (.person (Person.new pr.issuer email))) ttl (.ok next) := by
  obtain ⟨htrusted, hissuer⟩ := trusted_of_admitted hadmitted
  have hchange := change_remove hemail hadmitted htrim
  generalize hp : Person.new pr.issuer email = person at hchange ⊢
  have hbefore : (PolicyEdit.remove (.person person)).before me (.ok h) = .ok () := by
    have hkey : h.policy.issuers.containsKey person.issuer = true := hp ▸ htrusted
    simp [PolicyEdit.before, hkey]
  have hvalid := @validate_insert _ _ h.policy ttl now h.validate
    (hp ▸ validatePersonBan_new hissuer hat htrim)
  have hdirs : ¬((!h.signed.head.head.directories.isEmpty) = true ∧ h.policy.directories = []) := by
    rintro ⟨hlisted, hnil⟩
    rw [← (fields_of_toPolicy h.typed).2.2.2, hnil] at hlisted
    cases hlisted
  have hsign := signNext_eq_ok.mpr ⟨_, hchange, hdirs, hvalid, rfl⟩
  obtain ⟨c, hc⟩ := exists_candidate hread hsign
  rw [← hc] at hsign
  obtain ⟨next, hnext⟩ := Held.exists_verify.mpr (checkOffered_eq_ok.mp (checkOffered_of_signNext hsign)).1
  have hnext := Held.verify_eq_ok.mp hnext
  have hlt : h.version < h.version + 1 := by
    have hadd : (h.version + 1).toNat = (h.version.toNat + 1) % 2 ^ 64 := UInt64.toNat_add _ _
    rw [UInt64.lt_iff_toNat_lt]
    omega
  obtain ⟨s, hrun₁, hstore, hstage, -⟩ := Admin.run_beginning (s := .start file) (i := ()) _ ttl rfl
    hread hbefore
  obtain ⟨t, hrun₂, hdone, -⟩ := Admin.run_settling me hstage (by rw [hstore]; rfl) (by rw [hstore]; rfl)
    (by rw [hstore]; exact hread) hsign hnext hlt
  refine ⟨next, ?_, c, t, run_append.mpr ⟨s, hrun₁, hrun₂⟩, hdone⟩
  have htyped := next.typed
  rw [hnext, hc, Policy.toPolicy_signed (fabric_of_change hchange)] at htyped
  exact (Except.ok.inj htyped).symm

variable [Web]

/-- `wires remove` of an admitted person's email and issuer, at any time, removes them and nobody else
exactly if both can be given as they stand (and there is a next version). -/
theorem removable_iff (path : String) (root : NodeIdentity) (me : NodeId) (file : PolicyFile)
    (h : Held (nodeId root)) (hread : read path (nodeId root) file = .ok (some h)) (node : NodeId)
    (pr : Principal) (email : String) (hemail : pr.email = some email)
    (hadmitted : checkAdmitted h.policy node pr = .ok ()) (resolve : String → Except Anyhow Named)
    (assumed : Except Anyhow Issuer) (ttl : Ttl) (now : Int64) :
    (∃ next, Removes path root me file resolve assumed email pr.issuer ttl now next ∧
      Bars h.policy next.policy pr.issuer email) ↔
      Removable email pr.issuer ∧ h.version.toNat + 1 < 2 ^ 64 := by
  obtain ⟨htrusted, hissuer⟩ := trusted_of_admitted hadmitted
  constructor
  · rintro ⟨next, ⟨who, hwho, c, s, hrun, hdone⟩, hbars⟩
    obtain ⟨heq, hspace, hsplit, -, rfl⟩ := parseWho_eq_ok.mp hwho
    obtain ⟨hedit, hversion⟩ := edited_alone hread hrun hdone
    obtain ⟨q, now', hq, hnext⟩ := hedit
    have hmatches := matches_of_barred hemail hadmitted hq hnext
      (hbars.1 node pr email rfl hemail (by simp [eqIgnoreCase]))
    obtain ⟨hiss, e, he, hlower⟩ := (matches_new pr).mp hmatches
    obtain rfl := Option.some.inj (hemail.symm.trans he)
    rw [String.toList_ofList] at hlower
    have htrim := trim_of_asciiLower hlower.symm
    rw [htrim] at heq hspace hsplit
    have hbound := UInt64.toNat_lt next.version
    exact ⟨⟨heq, hspace, hsplit, hiss.symm⟩, by omega⟩
  · rintro ⟨⟨heq, hspace, hsplit, hiss⟩, hversion⟩
    have htrim := trim_of_forall hspace
    have hne : trim pr.issuer.toList ≠ [] := by
      intro hnil
      rw [hnil] at hiss
      rw [← hiss] at hissuer
      exact hissuer rfl
    have hwho : parseWho resolve assumed email (some pr.issuer) =
        .ok (.person (Person.new pr.issuer email)) := by
      refine parseWho_eq_ok.mpr ⟨htrim.symm ▸ heq, htrim.symm ▸ hspace, htrim.symm ▸ hsplit, hne, ?_⟩
      rw [hiss, htrim, String.ofList_toList]
    have hat : '@' ∈ email.toList := by
      obtain ⟨_, _, hs, -⟩ := hsplit
      exact mem_of_splitOnce hs
    obtain ⟨next, hnext, c, s, hrun, hdone⟩ := @exists_run_remove _ _ _ me _ _ _ _ _ hread hemail
      hadmitted htrim hat ttl now hversion
    refine ⟨next, ⟨_, hwho, c, s, hrun, hdone⟩, ?_⟩
    rw [hnext]
    exact bars_insert _ ttl now htrim

end

section Sample

attribute [local instance] Crypto.plain Web.plain

/-- A network that admits everyone a trusted issuer verifies. -/
def openPolicy : Policy :=
  { Policy.new (nodeId sampleRoot) with
    version := 1
    notAfter := 10000
    roles := .single sampleRole [.new "idp"]
    issuers := .single "idp" ⟨"cli", ["cli"]⟩ }

theorem validate_openPolicy : openPolicy.validate = .ok () := by decide

def openHeld : Held (nodeId sampleRoot) :=
  ⟨openPolicy.signed sampleRoot none, openPolicy,
    Policy.verify_signed_none rfl validate_openPolicy, Policy.toPolicy_signed rfl⟩

theorem parsed_openPolicy : openPolicy.Parsed := by
  intro e he m hm
  obtain rfl := List.mem_singleton.mp he
  obtain rfl := List.mem_singleton.mp hm
  nofun

def openOffer : Candidate := ⟨openHeld.signed, Policy.parsed_signed parsed_openPolicy⟩

theorem read_openPolicy :
    read "policy.json" (nodeId sampleRoot) (.text (policyText openOffer.policy)) =
      .ok (some openHeld) := by
  obtain ⟨held, hread, hs⟩ := read_policyText "policy.json" (c := openOffer) openHeld.verified
  have hsame : Held.verify openHeld.signed (nodeId sampleRoot) = .ok held := Held.verify_eq_ok.mpr hs
  rw [hread, ← Except.ok.inj ((Held.verify_eq_ok (h := openHeld).mpr rfl).symm.trans hsame)]

/-- Someone the issuer verifies, with this email. -/
def verifiedAs (email : String) : Principal := ⟨"idp", "1", some email, none, [], 100⟩

/-- One is removed by their email, in lowercase or not. -/
theorem removable_iff_sample : ∃ next : Held (nodeId sampleRoot),
    Removes "policy.json" sampleRoot (sampleNode 9) (.text (policyText openOffer.policy))
      (fun _ => .error []) (.error []) "Ann@x" "idp" Admin.sampleTtl 5 next ∧
      Bars openPolicy next.policy "idp" "Ann@x" := by
  have hany : "Ann@x".toList.any isWhitespace = false := by decide
  have hspace : ∀ c ∈ "Ann@x".toList, isWhitespace c = false := fun c hc =>
    Bool.eq_false_of_not_eq_true (List.any_eq_false.mp hany c hc)
  have hremovable : Removable "Ann@x" "idp" :=
    ⟨by decide, hspace, ⟨['A', 'n', 'n'], ['x'], by decide⟩, by decide⟩
  exact (removable_iff "policy.json" sampleRoot (sampleNode 9) _ openHeld read_openPolicy (sampleNode 5)
    (verifiedAs "Ann@x") "Ann@x" rfl (by decide) _ _ Admin.sampleTtl 5).mpr ⟨hremovable, by decide⟩

/-- One whose email has an equals sign is not. -/
theorem not_removable : ¬∀ (pr : Principal) (email : String), pr.email = some email →
    checkAdmitted openPolicy (sampleNode 5) pr = .ok () →
    ∃ next, Removes "policy.json" sampleRoot (sampleNode 9) (.text (policyText openOffer.policy))
      (fun _ => .error []) (.error []) email pr.issuer Admin.sampleTtl 5 next ∧
      Bars openPolicy next.policy pr.issuer email := by
  intro hall
  obtain ⟨next, ⟨who, hwho, -⟩, -⟩ := hall (verifiedAs "a=b@x") "a=b@x" rfl (by decide)
  obtain ⟨heq, -⟩ := parseWho_eq_ok.mp hwho
  exact heq (by decide)

end Sample

end Wires
