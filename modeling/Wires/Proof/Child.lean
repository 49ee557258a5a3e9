import Wires.Impl.Child
import Wires.Proof.Call
import Wires.Proof.Trust

/-!
# The environment of a service child

A variable of a child has the server's value, else the service's, else what the
host process has if the name is kept (`get?_childEnv`). No name that is kept
starts with `WIRES_`, and a valid `host.json` sets none that does
(`HostJson.reserved_of_valid`), so every such variable of a child is the
server's (`child_env_decided`).
-/

namespace Wires

theorem os_injective : Function.Injective os := fun _ _ h =>
  String.toList_injective (utf8_injective h)

theorem os_prefix_os_iff {s t : String} : os s <+: os t ↔ s.toList <+: t.toList :=
  utf8_prefix_utf8_iff

/-! ## What is kept of the host's own -/

/-- A name that a child inherits. -/
def Inherited (k : OsString) : Prop :=
  ∃ name : String, k = os name ∧ (name = "PATH" ∨ name = "LANG" ∨ "LC_".toList <+: name.toList)

theorem childInherits_iff {k : OsString} : childInherits k = true ↔ Inherited k := by
  unfold childInherits Inherited
  rw [Option.any_eq_true_iff_get]
  constructor
  · rintro ⟨hsome, hname⟩
    have hk := utf8Decode_eq_some.mp (Option.some_get hsome).symm
    generalize (utf8Decode k).get hsome = cs at hk hname
    refine ⟨String.ofList cs, ?_, ?_⟩
    · rw [os, String.toList_ofList, hk]
    · simpa [CHILD_INHERITS, or_assoc] using hname
  · rintro ⟨name, rfl, hname⟩
    have hdecode : utf8Decode (os name) = some name.toList := utf8Decode_utf8 name.toList
    refine ⟨by rw [hdecode]; rfl, ?_⟩
    simpa [hdecode, CHILD_INHERITS, or_assoc] using hname

instance (k : OsString) : Decidable (Inherited k) := decidable_of_iff _ childInherits_iff

/-- No name that is kept is one of the server's. -/
theorem Inherited.not_reserved {k : OsString} (h : Inherited k) : ¬os "WIRES_" <+: k := by
  obtain ⟨name, rfl, hname⟩ := h
  rw [os_prefix_os_iff]
  intro hpre
  rcases hname with rfl | rfl | hlc
  · exact absurd hpre (by decide)
  · exact absurd hpre (by decide)
  · have hone := List.prefix_or_prefix_of_prefix hpre hlc
    exact absurd hone (by decide)

/-! ## The three layers -/

/-- The value a service's own `env` gives a name. -/
def serviceValue (service : SortedMap String String) (k : OsString) : Option OsString :=
  (utf8Decode k).bind fun cs => (service.get? (String.ofList cs)).map os

theorem serviceValue_eq_some {service : SortedMap String String} {k v : OsString} :
    serviceValue service k = some v ↔
      ∃ name value, service.get? name = some value ∧ k = os name ∧ v = os value := by
  unfold serviceValue
  simp only [Option.bind_eq_some_iff, Option.map_eq_some_iff]
  constructor
  · rintro ⟨cs, hcs, value, hvalue, rfl⟩
    refine ⟨String.ofList cs, value, hvalue, ?_, rfl⟩
    rw [os, String.toList_ofList]
    exact utf8Decode_eq_some.mp hcs
  · rintro ⟨name, value, hvalue, rfl, rfl⟩
    refine ⟨name.toList, utf8Decode_utf8 _, value, ?_, rfl⟩
    rwa [String.ofList_toList]

theorem lastOf_service (service : SortedMap String String) (k : OsString) :
    lastOf (service.entries.map fun e => (os e.1, os e.2)) k = serviceValue service k := by
  have hnodup : ((service.entries.map fun e => (os e.1, os e.2)).map Prod.fst).Nodup := by
    have hkeys : (service.entries.map fun e => (os e.1, os e.2)).map Prod.fst =
        service.keys.map os := by simp [SortedMap.keys, Function.comp_def]
    rw [hkeys]
    exact service.nodup_keys.map os_injective
  refine Option.ext fun v => ?_
  rw [lastOf_eq_some_iff hnodup, serviceValue_eq_some, List.mem_map]
  constructor
  · rintro ⟨⟨name, value⟩, he, heq⟩
    obtain ⟨rfl, rfl⟩ := Prod.mk.inj heq
    exact ⟨name, value, SortedMap.get?_eq_some_iff.mpr he, rfl, rfl⟩
  · rintro ⟨name, value, hvalue, rfl, rfl⟩
    exact ⟨(name, value), SortedMap.get?_eq_some_iff.mp hvalue, rfl⟩

/-- What the host process has of a name that is kept. -/
def inheritedValue (inherited : List (OsString × OsString)) (k : OsString) : Option OsString :=
  if Inherited k then lastOf inherited k else none

theorem get?_childEnv (inherited : List (OsString × OsString)) (service : SortedMap String String)
    (server : List (OsString × OsString)) (k : OsString) :
    (childEnv inherited service server).get? k =
      (lastOf server k).or ((serviceValue service k).or (inheritedValue inherited k)) := by
  unfold childEnv
  rw [SortedMap.get?_extend, SortedMap.get?_extend, SortedMap.get?_collect, lastOf_service,
    lastOf_filter, inheritedValue]
  simp only [childInherits_iff]

/-! ## The server's values -/

section

variable {caller : NodeId} {service : ServiceName} {admitted : Admitted}
  {capability : Option (PushToken × OsString)}

theorem keys_serverEnv : (serverEnv caller service admitted capability).map Prod.fst =
    (["WIRES_CALLER_NODE", "WIRES_ID_TOKEN", "WIRES_CALLER", "WIRES_SERVICE", "WIRES_ROLE"] ++
      (admitted.caller.principal.email.map fun _ => "WIRES_CALLER_EMAIL").toList ++
      if capability.isSome then [ENV_SOCKET, ENV_TOKEN] else []).map os := by
  obtain ⟨role, version, token, issuer, subject, email, org, groups, notAfter⟩ := admitted
  cases email <;> cases capability <;> rfl

/-- The server sets no variable twice. -/
theorem nodup_serverEnv : ((serverEnv caller service admitted capability).map Prod.fst).Nodup := by
  rw [keys_serverEnv]
  refine List.Nodup.map os_injective ?_
  cases admitted.caller.principal.email <;> cases capability <;> simp [ENV_SOCKET, ENV_TOKEN]

/-- The server's e-mail is the verified one. -/
theorem lastOf_email : lastOf (serverEnv caller service admitted capability) (os "WIRES_CALLER_EMAIL") =
    admitted.caller.principal.email.map os := by
  cases hemail : admitted.caller.principal.email with
  | some email =>
    refine (lastOf_eq_some_iff nodup_serverEnv).mpr ?_
    unfold serverEnv
    simp [hemail]
  | none =>
    rw [Option.map_none, lastOf_eq_none_iff, keys_serverEnv, hemail,
      List.mem_map_of_injective os_injective]
    cases capability <;> simp [ENV_SOCKET, ENV_TOKEN]

end

/-! ## A valid file -/

section

variable [Web] {json : HostJson}

theorem HostJson.validateFields_of_validate (h : json.validate = .ok ()) :
    json.validateFields = .ok () := by
  obtain ⟨-, -, hfields⟩ := bind_eq_ok.mp h
  exact hfields

/-- No service of a valid file sets a variable of the server's. -/
theorem HostJson.reserved_of_valid (hvalid : json.validateFields = .ok ()) {service : ServiceName}
    {svc : ServiceCommand} (hsvc : json.services.get? service = some svc) {k v : OsString}
    (hk : serviceValue svc.env k = some v) : ¬os "WIRES_" <+: k := by
  obtain ⟨name, value, hvalue, rfl, -⟩ := serviceValue_eq_some.mp hk
  obtain ⟨-, -, hservices⟩ := bind_eq_ok.mp hvalid
  have hservice := forEach_eq_ok.mp hservices _ (SortedMap.get?_eq_some_iff.mp hsvc)
  simp only [validateService, validateEnvName, bind_eq_ok, ensure_eq_ok, exists_const,
    forEach_eq_ok] at hservice
  have hkey : name ∈ svc.env.keys :=
    List.mem_map_of_mem (f := Prod.fst) (SortedMap.get?_eq_some_iff.mp hvalue)
  rw [os_prefix_os_iff]
  exact (hservice.2.2 name hkey).2

end

/-! ## What was decided -/

/-- `env` is the environment that was decided: of what the host process has, what a service sets,
and what the server sets of a call that verified as `who`. -/
structure EnvDecided (inherited : List (OsString × OsString)) (service : SortedMap String String)
    (server : List (OsString × OsString)) (who : Principal) (env : SortedMap OsString OsString) :
    Prop where
  /-- A later layer overrides an earlier one. -/
  layers : ∀ k, env.get? k =
    (lastOf server k).or ((serviceValue service k).or (inheritedValue inherited k))
  /-- What the server sets is there. -/
  theirs : ∀ k v, (k, v) ∈ server → env.get? k = some v
  /-- Every variable named as the server's are is one of them. -/
  reserved : ∀ k v, env.get? k = some v → os "WIRES_" <+: k → (k, v) ∈ server
  email : env.get? (os "WIRES_CALLER_EMAIL") = who.email.map os
  nothingElse : ∀ k v, env.get? k = some v → (k, v) ∈ server ∨
    (∃ name value, service.get? name = some value ∧ k = os name ∧ v = os value) ∨
    (Inherited k ∧ (k, v) ∈ inherited)

section

variable {inherited : List (OsString × OsString)} {service : SortedMap String String}
  {server : List (OsString × OsString)} {k v : OsString}

/-- Where a variable of a child comes from. -/
theorem origin_childEnv (h : (childEnv inherited service server).get? k = some v) :
    (k, v) ∈ server ∨ serviceValue service k = some v ∨ (Inherited k ∧ (k, v) ∈ inherited) := by
  rw [get?_childEnv, Option.or_eq_some_iff, Option.or_eq_some_iff] at h
  rcases h with hserver | ⟨-, hservice | ⟨-, hinherited⟩⟩
  · exact .inl (mem_of_lastOf hserver)
  · exact .inr (.inl hservice)
  · unfold inheritedValue at hinherited
    split_ifs at hinherited with hkept
    exact .inr (.inr ⟨hkept, mem_of_lastOf hinherited⟩)

/-- The environment of a call's child is what was decided, where the service sets no variable of
the server's. -/
theorem decided_childEnv {caller : NodeId} {name : ServiceName} {admitted : Admitted}
    {capability : Option (PushToken × OsString)}
    (hreserved : ∀ k v, serviceValue service k = some v → ¬os "WIRES_" <+: k) :
    EnvDecided inherited service (serverEnv caller name admitted capability)
      admitted.caller.principal
      (childEnv inherited service (serverEnv caller name admitted capability)) where
  layers := get?_childEnv inherited service _
  theirs k v hmem := by
    rw [get?_childEnv, (lastOf_eq_some_iff nodup_serverEnv).mpr hmem]
    rfl
  reserved k v hget hpre := by
    rcases origin_childEnv hget with hserver | hservice | ⟨hkept, -⟩
    · exact hserver
    · exact absurd hpre (hreserved k v hservice)
    · exact absurd hpre hkept.not_reserved
  email := by
    have hpre : os "WIRES_" <+: os "WIRES_CALLER_EMAIL" := os_prefix_os_iff.mpr (by decide)
    have hservice : serviceValue service (os "WIRES_CALLER_EMAIL") = none := by
      by_contra hne
      obtain ⟨value, hvalue⟩ := Option.ne_none_iff_exists'.mp hne
      exact hreserved _ value hvalue hpre
    have hinherited : inheritedValue inherited (os "WIRES_CALLER_EMAIL") = none :=
      if_neg fun hkept => hkept.not_reserved hpre
    rw [get?_childEnv, lastOf_email, hservice, hinherited]
    simp
  nothingElse k v hget := by
    rw [← serviceValue_eq_some]
    exact origin_childEnv hget

end

section

variable [Crypto] [Web] {root : NodeId}

/-- The child of a call that a host with a valid `host.json` admits has the environment that was
decided: of the token the caller presented, the person it verified as, the role and the service that
were authorized, and a push token minted for that caller. -/
theorem child_env_decided (json : HostJson) (hvalid : json.validateFields = .ok ()) (me : NodeId)
    (native : List ServiceName) (issuerOf : IdToken → Except String Issuer) (keys : Keys)
    (state : Held root) (caller : NodeId) (token : IdToken) (service : ServiceName) (now : Int64)
    (grants : Option PushGrants) (input : CallInput) (child : Child) (left : Option PushGrants)
    (h : json.serveCall me native issuerOf keys state caller token service now grants input =
      .ok (some (child, left))) :
    ∃ svc who role, json.services.get? service = some svc ∧
      ServicesHost.verdict ⟨me, json.config, native⟩ issuerOf keys state caller token now = .ok who ∧
      authorize state.policy caller (some who) service = .ok role ∧
      left = grants.map (fun g =>
        { g with caps := g.caps.mint input.pushToken caller input.mintedAt }) ∧
      EnvDecided input.inherited svc.env
        (serverEnv caller service ⟨role, state.version, token, who⟩
          (grants.map fun g => (input.pushToken, g.socket))) who child.env := by
  obtain ⟨⟨admitted, implementation⟩, hanswer, hreturn⟩ := bind_eq_ok.mp h
  obtain ⟨who, role, hwho, hrole, rfl⟩ : ∃ who role,
      ServicesHost.verdict ⟨me, json.config, native⟩ issuerOf keys state caller token now = .ok who ∧
      authorize state.policy caller (some who) service = .ok role ∧
      admitted = ⟨role, state.version, token, who⟩ := by
    unfold ServicesHost.answerCall ServicesHost.decide at hanswer
    simp only [bind_eq_ok, mapErr_eq_ok, orError_eq_ok, pure_eq_ok, Prod.mk.injEq] at hanswer
    obtain ⟨verified, hverified, admitted', hadmit, -, -, rfl, rfl⟩ := hanswer
    obtain ⟨-, -, ⟨role, hrole, rfl⟩, -⟩ := admitCall_eq_ok.mp hadmit
    unfold admitCaller at hverified
    split at hverified
    · cases hverified
    · cases hverified
    · cases hverified
    · rename_i who hwho
      split at hverified
      · cases hverified
      · obtain rfl := Except.ok.inj hverified
        exact ⟨who, role, hwho, hrole, rfl⟩
  rw [pure_eq_ok] at hreturn
  cases implementation with
  | native => cases hreturn
  | command impl =>
    obtain ⟨svc, hsvc, hspawn⟩ := Option.bind_eq_some_iff.mp hreturn
    obtain ⟨run, -, hrun⟩ := Option.map_eq_some_iff.mp hspawn
    obtain ⟨rfl, rfl⟩ := Prod.mk.inj hrun
    refine ⟨svc, who, role, hsvc, hwho, hrole, rfl, ?_⟩
    have hcapability : (grants.map fun g =>
          ({ g with caps := g.caps.mint input.pushToken caller input.mintedAt } : PushGrants)).map
          (fun g => (input.pushToken, g.socket)) = grants.map fun g => (input.pushToken, g.socket) := by
      rw [Option.map_map]
      rfl
    dsimp only
    rw [hcapability]
    exact decided_childEnv fun k v => HostJson.reserved_of_valid hvalid hsvc

end

/-! ## A locale variable that is not kept -/

section Sample

attribute [local instance] Crypto.plain Web.plain

open ServicesHost

def alice : Principal := ⟨"idp", "alice", some "alice@x", none, [], 100⟩

/-- The keys verify every token as Alice's. -/
def alicesKeys : Keys := fun _ _ _ _ => .ok alice

/-- A service that sets one variable. -/
def sampleCommand : ServiceCommand :=
  ⟨⟨[]⟩, ["db"], none, ⟨[("LANG", "C")], by simp⟩, false⟩

def sampleHostJson : HostJson := ⟨none, ⟨[(sampleName, sampleCommand)], by simp⟩⟩

theorem validate_sampleHostJson : sampleHostJson.validate = .ok () := by decide

/-- A locale variable whose name is not UTF-8. -/
def oddLocale : OsString := os "LC_" ++ [0xff]

def sampleCall : CallInput :=
  ⟨["-q"], [(os "HOME", os "/root"), (os "PATH", os "/bin"), (oddLocale, os "C")], Bytes.fill 32 7, 0⟩

/-- What Alice's call spawns. -/
def sampleChild : Child :=
  ⟨"db", ["-q"], none, childEnv sampleCall.inherited sampleCommand.env
    (serverEnv (sampleNode 4) sampleName ⟨analystRole, 1, "idp", alice⟩ none)⟩

theorem serveCall_sample : sampleHostJson.serveCall (sampleNode 2) [] .ok alicesKeys loudHeld
    (sampleNode 4) "idp" sampleName 5 none sampleCall = .ok (some (sampleChild, none)) := by
  have hanswer : answerCall ⟨sampleNode 2, sampleHostJson.config, []⟩ .ok alicesKeys loudHeld
      (sampleNode 4) "idp" sampleName 5 =
        .ok (⟨analystRole, 1, "idp", alice⟩, .command sampleCommand.toServiceImpl) := by
    rfl
  unfold HostJson.serveCall
  rw [hanswer]
  rfl

theorem child_env_decided_sample : ∃ svc who role,
    sampleHostJson.services.get? sampleName = some svc ∧
    verdict ⟨sampleNode 2, sampleHostJson.config, []⟩ .ok alicesKeys loudHeld (sampleNode 4) "idp" 5 =
      .ok who ∧
    authorize loudHeld.policy (sampleNode 4) (some who) sampleName = .ok role ∧
    none = none.map (fun g : PushGrants =>
      { g with caps := g.caps.mint sampleCall.pushToken (sampleNode 4) sampleCall.mintedAt }) ∧
    EnvDecided sampleCall.inherited svc.env
      (serverEnv (sampleNode 4) sampleName ⟨role, loudHeld.version, "idp", who⟩
        (none.map fun g : PushGrants => (sampleCall.pushToken, g.socket))) who sampleChild.env :=
  child_env_decided sampleHostJson (HostJson.validateFields_of_validate validate_sampleHostJson)
    (sampleNode 2) [] .ok alicesKeys loudHeld (sampleNode 4) "idp" sampleName 5 none sampleCall
    sampleChild none serveCall_sample

theorem not_inherited_oddLocale : ¬Inherited oddLocale := by
  rintro ⟨name, hname, -⟩
  obtain ⟨cs, hcs, -⟩ := exists_of_utf8_append hname
  have hlen := congrArg List.length hcs
  have hbounds := length_utf8_bounds cs
  rw [List.length_singleton] at hlen
  obtain ⟨c, rfl⟩ : ∃ c, cs = [c] := List.length_eq_one_iff.mp (by omega)
  have hencode : utf8 [c] = String.utf8EncodeChar c := by simp [utf8]
  rw [hencode] at hcs hlen
  have hsize : c.utf8Size = 1 := by rw [← String.length_utf8EncodeChar, ← hlen]
  rw [String.utf8EncodeChar_eq_singleton hsize] at hcs
  -- A byte that is a character of its own is below 0x80.
  have hsmall : c.val.toNat ≤ 127 := Char.utf8Size_eq_one_iff.mp hsize
  have hbyte := congrArg UInt8.toNat (List.singleton_inj.mp hcs)
  rw [UInt32.toNat_toUInt8] at hbyte
  have hff : (0xff : UInt8).toNat = 255 := rfl
  omega

/-- A locale variable is not always inherited: one whose name is not UTF-8 is not. -/
theorem not_locale_inherited : ¬∀ (json : HostJson) (me : NodeId) (native : List ServiceName)
    (issuerOf : IdToken → Except String Issuer) (keys : Keys) (state : Held (nodeId sampleRoot))
    (caller : NodeId) (token : IdToken) (service : ServiceName) (now : Int64)
    (grants : Option PushGrants) (input : CallInput) (child : Child) (left : Option PushGrants)
    (k : OsString), json.validate = .ok () →
    json.serveCall me native issuerOf keys state caller token service now grants input =
      .ok (some (child, left)) →
    k = os "PATH" ∨ k = os "LANG" ∨ os "LC_" <+: k → ¬os "WIRES_" <+: k →
    (∀ svc, json.services.get? service = some svc → serviceValue svc.env k = none) →
    child.env.get? k = lastOf input.inherited k := by
  intro hall
  have hpre : os "LC_" <+: oddLocale := List.prefix_append _ _
  have hnone : ∀ svc, sampleHostJson.services.get? sampleName = some svc →
      serviceValue svc.env oddLocale = none := by
    intro svc hsvc
    obtain rfl : sampleCommand = svc := Option.some.inj hsvc
    by_contra hne
    obtain ⟨v, hv⟩ := Option.ne_none_iff_exists'.mp hne
    obtain ⟨name, value, hvalue, hname, -⟩ := serviceValue_eq_some.mp hv
    have hmem := SortedMap.get?_eq_some_iff.mp hvalue
    rw [(Prod.mk.inj (List.mem_singleton.mp hmem)).1] at hname
    exact not_inherited_oddLocale ⟨"LANG", hname, .inr (.inl rfl)⟩
  have hserver : ¬os "WIRES_" <+: oddLocale := by decide
  have hget := hall sampleHostJson (sampleNode 2) [] .ok alicesKeys loudHeld (sampleNode 4) "idp"
    sampleName 5 none sampleCall sampleChild none oddLocale validate_sampleHostJson serveCall_sample
    (.inr (.inr hpre)) hserver hnone
  have hthere : lastOf sampleCall.inherited oddLocale = some (os "C") := by decide
  rw [hthere] at hget
  rcases origin_childEnv hget with hmem | hservice | ⟨hkept, -⟩
  · exact absurd (List.mem_map_of_mem (f := Prod.fst) hmem) (by decide)
  · rw [hnone sampleCommand rfl] at hservice
    cases hservice
  · exact not_inherited_oddLocale hkept

end Sample

end Wires
