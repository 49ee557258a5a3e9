import Wires.Framework.Run
import Wires.Impl.OAuth

/-!
# What the gateway's handlers do

A step of a request answers it, or takes one authorization further: it begins,
is confirmed, comes back from the IdP, is signed in, gets a code, and the code
is presented (`Steps`). No other step changes the store, the cookies of a
browser or what has been done, but for the end of an authorization that came
back with an error.
-/

namespace Wires

theorem Errors.mapErr {ε ε' α : Type} {P : ε' → Prop} {f : ε → ε'} {x : Except ε α}
    (h : ∀ e, P (f e)) : Errors P (Wires.mapErr f x) := by
  intro e' he'
  obtain ⟨e, -, rfl⟩ := mapErr_eq_error.mp he'
  exact h e

namespace OAuth

/-! ## The parts of a state -/

section

variable [Web] {β ι : Type} [DecidableEq β] [DecidableEq ι] {s : OAuth β ι} {i : ι} {b : β}
  {stage : OAuthStage β} {reply : Reply} {d : Deed β}

omit [DecidableEq β]

@[simp] theorem goes_store : (s.goes i stage).store = s.store := rfl

@[simp] theorem goes_jars : (s.goes i stage).jars = s.jars := rfl

@[simp] theorem goes_log : (s.goes i stage).log = s.log := rfl

@[simp] theorem goes_requests :
    (s.goes i stage).requests = Function.update s.requests i (some stage) := rfl

@[simp] theorem answers_store : (s.answers i reply).store = s.store := rfl

@[simp] theorem answers_jars : (s.answers i reply).jars = s.jars := rfl

@[simp] theorem answers_log : (s.answers i reply).log = s.log := rfl

@[simp] theorem answers_requests :
    (s.answers i reply).requests = Function.update s.requests i (some (.done reply)) := rfl

omit [DecidableEq ι] in
@[simp] theorem does_store : (s.does d).store = s.store := rfl

omit [DecidableEq ι] in
@[simp] theorem does_jars : (s.does d).jars = s.jars := rfl

omit [DecidableEq ι] in
@[simp] theorem does_requests : (s.does d).requests = s.requests := rfl

omit [DecidableEq ι] in
@[simp] theorem does_log : (s.does d).log = s.log ++ [d] := rfl

variable [DecidableEq β]

@[simp] theorem answersIn_store : (s.answersIn i b reply).store = s.store := rfl

@[simp] theorem answersIn_log : (s.answersIn i b reply).log = s.log := rfl

@[simp] theorem answersIn_requests :
    (s.answersIn i b reply).requests = Function.update s.requests i (some (.done reply)) := rfl

@[simp] theorem answersIn_jars : (s.answersIn i b reply).jars = Function.update s.jars b
    (s.jars b ++ (reply.setCookie.map fun c => (c.name, c.value)).toList) := rfl

omit [DecidableEq β] in
/-- What holds of every stage of a request holds when one has come to another such. -/
theorem stages_update {P : OAuthStage β → Prop} {requests : ι → Option (OAuthStage β)}
    (h : ∀ j st, requests j = some st → P st) (hstage : P stage) (j : ι) (st : OAuthStage β)
    (hj : Function.update requests i (some stage) j = some st) : P st := by
  rw [Function.update_apply] at hj
  split_ifs at hj
  · exact Option.some.inj hj ▸ hstage
  · exact h j st hj

end

/-! ## Refusals -/

theorem mem_of_cookie {headers : List String} {name value : String}
    (h : cookie headers name = some value) : (name, value) ∈ cookies headers := by
  obtain ⟨p, hp, rfl⟩ := Option.map_eq_some_iff.mp h
  have hname : p.1 = name := by simpa using List.find?_some hp
  rw [← hname]
  exact List.mem_of_find?_eq_some hp

section

variable [Web]

/-- A reply that sets no cookie and gives no token. -/
def Plain : Reply → Prop
  | .page _ _ | .redirect _ none | .oauthError _ _ _ => True
  | _ => False

theorem Plain.setCookie {reply : Reply} (h : Plain reply) : reply.setCookie = none := by
  cases reply with
  | redirect url cookie =>
    cases cookie with
    | none => rfl
    | some cookie => cases h
  | consent name host returnsTo id cookie => cases h
  | _ => rfl

theorem Plain.ne_token {reply : Reply} (h : Plain reply) (token : String) (n : Int64) :
    reply ≠ .token token n := by
  intro heq
  rw [heq] at h
  cases h

variable [Origin] {gw : Gateway}

theorem plain_authorization (q : Form) (client : Except String Client)
    (verifier : Except Anyhow String) (now : Int64) :
    Errors Plain (authorization gw q client verifier now) := by
  refine .bind (.orError trivial) fun _ => .bind (.mapErr fun _ => trivial) fun _ =>
    .bind (.orError trivial) fun _ => .bind (.ensure trivial) fun _ =>
    .bind (.orError trivial) fun _ => .bind (.ensure trivial) fun _ =>
    .bind (.forEach fun _ => .ensure trivial) fun _ => .bind (.mapErr fun _ => trivial) fun _ => .ok _

omit [Origin] in
theorem plain_confirmable (s : Store) (headers : List String) (f : Form) (now : Int64) :
    Errors Plain (confirmable s headers f now) :=
  .bind (.ensure trivial) fun _ => .bind (.orError trivial) fun _ => .ok _

theorem plain_admitted (a : Authorization) (tools : Except Anyhow (List ViewService)) :
    Errors Plain (admitted gw a tools) := by
  unfold admitted
  split
  · exact .error trivial
  · exact .ok _
  · split_ifs
    · exact .error trivial
    · exact .error trivial

theorem plain_exchanged [Jose] (a : Authorization) (reply : Except Anyhow TokenReply) (now : Int64)
    (keys : Issuer → Option String → Except Anyhow Jwks) :
    Errors Plain (exchanged gw a reply now keys) := .mapErr fun _ => trivial

/-! ## Presenting a code -/

/-- Presenting a code uses it up, whatever comes of it, and leaves every authorization and every
other code. -/
theorem redeem_store (s : Store) (code : String) (f : Form) (now : Int64)
    (drawn : Except Anyhow String) (persisted : Bool) :
    (redeem gw s code f now drawn persisted).1.pending = s.pending ∧
      (redeem gw s code f now drawn persisted).1.codes = s.codes.erase code := by
  unfold redeem Store.redeemCode
  split
  · rename_i hcode
    obtain ⟨rfl, -⟩ := Prod.mk.inj hcode
    exact ⟨rfl, rfl⟩
  · rename_i hcode
    obtain ⟨rfl, -⟩ := Prod.mk.inj hcode
    split
    · exact ⟨rfl, rfl⟩
    · split
      · exact ⟨rfl, rfl⟩
      · dsimp only
        split_ifs
        · exact ⟨rfl, rfl⟩
        · exact ⟨rfl, rfl⟩

/-! ## What a step does -/

variable {β ι : Type} [DecidableEq β] [DecidableEq ι] [Jose] {s t : OAuth β ι} {i : ι} {b : β}

omit [Origin] [Jose] in
theorem answersIn_eq {reply : Reply} (h : Plain reply) :
    s.answersIn i b reply = s.answers i reply := by
  have hjar : s.jars b ++ (reply.setCookie.map fun c => (c.name, c.value)).toList = s.jars b := by
    rw [h.setCookie]
    exact List.append_nil _
  rw [answersIn, hjar, Function.update_eq_self]
  rfl

/-- What one step does. -/
inductive Steps (gw : Gateway) (s : OAuth β ι) : OAuthEvent β ι → OAuth β ι → Prop where
  /-- The request is answered, and nothing else changes. -/
  | refused {e : OAuthEvent β ι} {i : ι} {reply : Reply} (hplain : Plain reply) :
      Steps gw s e (s.answers i reply)
  | began {i : ι} {b : β} {q : Form} {client : Except String Client}
      {verifier : Except Anyhow String} {id : String} {now : Int64} {victims : List String}
      {c : Client} {a : Authorization} {store : Store} (hidle : s.requests i = none)
      (hasked : authorization gw q client verifier now = .ok (c, a))
      (hstore : s.store.begin a id victims = some store) :
      Steps gw s (.authorize i b q client verifier (.ok id) now victims)
        (({ s with store }.does (.began b id a)).answersIn i b (consent gw.urls c a.redirectUri id))
  | confirms {i : ι} {b : β} {headers : List String} {f : Form} {now : Int64} {id : String}
      {a : Authorization} (hidle : s.requests i = none) (hown : ∀ c ∈ cookies headers, c ∈ s.jars b)
      (hcookie : cookie headers CONSENT_COOKIE = some id) (ha : s.store.pending? id now = some a) :
      Steps gw s (.confirm i b headers f now) (s.goes i (.confirming b id a))
  | confirmed {i : ι} {b : β} {id : String} {a : Authorization} {doc : Discovery}
      (hstage : s.requests i = some (.confirming b id a)) :
      Steps gw s (.discovered i (.ok doc))
        ((s.does (.confirmed b id)).answersIn i b (upstream gw id a (.ok doc)))
  /-- An authorization came back with an error, or was not there. -/
  | lapses {i : ι} {b : β} {headers : List String} {q : Form} {now : Int64} {id : String}
      {reply : Reply} (hplain : Plain reply) :
      Steps gw s (.callback i b headers q now)
        ({ s with store := (s.store.finish id now).1 }.answers i reply)
  | returned {i : ι} {b : β} {headers : List String} {q : Form} {now : Int64} {id code : String}
      {a : Authorization} (hidle : s.requests i = none) (hown : ∀ c ∈ cookies headers, c ∈ s.jars b)
      (hcookie : cookie headers CALLBACK_COOKIE = some (callbackBinding id))
      (ha : s.store.pending? id now = some a) :
      Steps gw s (.callback i b headers q now)
        (({ s with store := (s.store.finish id now).1 }.does
          (.returned b id (exchangeForm gw a code))).goes i
          (.exchanging b id a (exchangeForm gw a code) now))
  | signedIn {i : ι} {b : β} {id : String} {a : Authorization} {form : List (String × String)}
      {now at_ : Int64} {reply : Except Anyhow TokenReply}
      {keys : Issuer → Option String → Except Anyhow Jwks} {login : Login}
      (hstage : s.requests i = some (.exchanging b id a form now))
      (hlogin : exchanged gw a reply at_ keys = .ok login) :
      Steps gw s (.exchanged i reply at_ keys)
        ((s.does (.signedIn b id login)).goes i (.viewing b id a (sessionOf a login) now))
  | coded {i : ι} {b : β} {id : String} {a : Authorization} {session : Session} {now : Int64}
      {tools : Except Anyhow (List ViewService)} {code : String} {victims : List String}
      {store : Store} (hstage : s.requests i = some (.viewing b id a session now))
      (hadmitted : admitted gw a tools = .ok ())
      (hstore : s.store.issueCode (grantOf a session now) code victims = some store) :
      Steps gw s (.viewed i tools (.ok code) victims)
        (({ s with store }.does (.coded b id code)).answers i
          (toClient gw.urls a.redirectUri a.state [("code", code)]))
  | redeemed {i : ι} {f : Form} {now : Int64} {drawn : Except Anyhow String} {persisted : Bool}
      {code : String} (hidle : s.requests i = none) (hcode : f.get? "code" = some code) :
      Steps gw s (.token i f now drawn persisted)
        (({ s with store := (redeem gw s.store code f now drawn persisted).1 }.does
          (.redeemed code f (redeem gw s.store code f now drawn persisted).2.2)).answers i
          (redeem gw s.store code f now drawn persisted).2.1)

theorem steps_of_authorize {q : Form} {client : Except String Client}
    {verifier id : Except Anyhow String} {now : Int64} {victims : List String}
    (h : step gw s (.authorize i b q client verifier id now victims) = some t) :
    Steps gw s (.authorize i b q client verifier id now victims) t := by
  have hplain : Errors Plain (authorization gw q client verifier now) := plain_authorization _ _ _ _
  rw [step, Option.ite_none_left_eq_some, Bool.not_eq_true, Option.isSome_eq_false_iff,
    Option.isNone_iff_eq_none] at h
  obtain ⟨hidle, h⟩ := h
  split at h
  · rename_i reply hreply
    rw [← Option.some.inj h, answersIn_eq (hplain reply hreply)]
    exact .refused (hplain reply hreply)
  · rename_i c a hasked
    split at h
    · have hplain : Plain (back gw.urls a.redirectUri a.state "server_error"
        "could not record the authorization") := trivial
      rw [← Option.some.inj h, answersIn_eq hplain]
      exact .refused hplain
    · obtain ⟨store, hstore, rfl⟩ := Option.map_eq_some_iff.mp h
      exact .began hidle hasked hstore

theorem steps_of_confirm {headers : List String} {f : Form} {now : Int64}
    (h : step gw s (.confirm i b headers f now) = some t) :
    Steps gw s (.confirm i b headers f now) t := by
  have hplain := plain_confirmable s.store headers f now
  rw [step, Option.ite_none_left_eq_some, not_or, not_not, Bool.not_eq_true,
    Option.isSome_eq_false_iff, Option.isNone_iff_eq_none] at h
  obtain ⟨⟨hidle, hown⟩, h⟩ := h
  split at h
  · rename_i reply hreply
    rw [← Option.some.inj h, answersIn_eq (hplain reply hreply)]
    exact .refused (hplain reply hreply)
  · rename_i id a hok
    obtain rfl := Option.some.inj h
    simp only [confirmable, bind_eq_ok, ensure_eq_ok, exists_const, orError_eq_ok, pure_eq_ok,
      Prod.mk.injEq] at hok
    obtain ⟨hcookie, a', ha, hid, rfl⟩ := hok
    rw [not_or, not_not] at hcookie
    rw [hid] at hcookie ha
    exact .confirms hidle hown hcookie.2 ha

theorem steps_of_discovered {doc : Except Anyhow Discovery}
    (h : step gw s (.discovered i doc) = some t) : Steps gw s (.discovered i doc) t := by
  rw [step] at h
  split at h
  · rename_i b id a hstage
    split at h
    · rename_i why
      have hplain : Plain (upstream gw id a (.error why)) := trivial
      rw [← Option.some.inj h, answersIn_eq hplain]
      exact .refused hplain
    · obtain rfl := Option.some.inj h
      exact .confirmed hstage
  · cases h

omit [Jose] in
/-- What a callback that is refused does to the store. -/
theorem returned_eq_error {store store' : Store} {headers : List String} {q : Form} {now : Int64}
    {reply : Reply} (h : returned gw store headers q now = (store', .error reply)) :
    Plain reply ∧ (store' = store ∨ ∃ id, store' = (store.finish id now).1) := by
  unfold returned at h
  dsimp only at h
  split_ifs at h
  · obtain ⟨rfl, hreply⟩ := Prod.mk.inj h
    obtain rfl := Except.error.inj hreply
    exact ⟨trivial, .inl rfl⟩
  · obtain ⟨rfl, hreply⟩ := Prod.mk.inj h
    refine ⟨?_, .inr ⟨_, rfl⟩⟩
    refine (show Errors Plain _ from ?_) reply hreply
    exact .bind (.orError trivial) fun _ => .bind (.forEach fun _ => .error trivial) fun _ =>
      .bind (.orError trivial) fun _ => .ok _

omit [Jose] in
/-- What a callback that goes on was sent. -/
theorem returned_eq_ok {store store' : Store} {headers : List String} {q : Form} {now : Int64}
    {id code : String} {a : Authorization}
    (h : returned gw store headers q now = (store', .ok (id, a, code))) :
    store' = (store.finish id now).1 ∧ cookie headers CALLBACK_COOKIE = some (callbackBinding id) ∧
      store.pending? id now = some a := by
  unfold returned at h
  dsimp only at h
  split_ifs at h with hbound
  · cases (Prod.mk.inj h).2
  · obtain ⟨rfl, hok⟩ := Prod.mk.inj h
    simp only [bind_eq_ok, orError_eq_ok, pure_eq_ok, Prod.mk.injEq] at hok
    obtain ⟨a', ha', -, -, code', -, rfl, rfl, -⟩ := hok
    rw [not_or, not_not] at hbound
    exact ⟨rfl, hbound.2, ha'⟩

theorem steps_of_callback {headers : List String} {q : Form} {now : Int64}
    (h : step gw s (.callback i b headers q now) = some t) :
    Steps gw s (.callback i b headers q now) t := by
  rw [step, Option.ite_none_left_eq_some, not_or, not_not, Bool.not_eq_true,
    Option.isSome_eq_false_iff, Option.isNone_iff_eq_none] at h
  obtain ⟨⟨hidle, hown⟩, h⟩ := h
  split at h
  · rename_i store reply hreply
    obtain ⟨hplain, rfl | ⟨id, rfl⟩⟩ := returned_eq_error hreply
    · rw [← Option.some.inj h, answersIn_eq hplain]
      exact .refused hplain
    · rw [← Option.some.inj h, answersIn_eq hplain]
      exact .lapses hplain
  · rename_i store id a code hok
    obtain ⟨rfl, hcookie, ha⟩ := returned_eq_ok hok
    obtain rfl := Option.some.inj h
    exact .returned hidle hown hcookie ha

theorem steps_of_exchanged {reply : Except Anyhow TokenReply} {at_ : Int64}
    {keys : Issuer → Option String → Except Anyhow Jwks}
    (h : step gw s (.exchanged i reply at_ keys) = some t) :
    Steps gw s (.exchanged i reply at_ keys) t := by
  rw [step] at h
  split at h
  · rename_i b id a form now hstage
    split at h
    · rename_i why hwhy
      have hplain : Plain why := plain_exchanged a reply at_ keys why hwhy
      rw [← Option.some.inj h, answersIn_eq hplain]
      exact .refused hplain
    · rename_i login hlogin
      obtain rfl := Option.some.inj h
      exact .signedIn hstage hlogin
  · cases h

theorem steps_of_viewed {tools : Except Anyhow (List ViewService)} {code : Except Anyhow String}
    {victims : List String} (h : step gw s (.viewed i tools code victims) = some t) :
    Steps gw s (.viewed i tools code victims) t := by
  rw [step] at h
  split at h
  · rename_i b id a session now hstage
    split at h
    · rename_i why hwhy
      have hplain : Plain why := plain_admitted a tools why hwhy
      rw [← Option.some.inj h, answersIn_eq hplain]
      exact .refused hplain
    · rename_i hadmitted
      split at h
      · rw [← Option.some.inj h]
        have hplain : Plain (back gw.urls a.redirectUri a.state "server_error"
          "could not issue a code") := trivial
        rw [answersIn_eq hplain]
        exact .refused hplain
      · rename_i code
        obtain ⟨store, hstore, rfl⟩ := Option.map_eq_some_iff.mp h
        have hplain : Plain (toClient gw.urls a.redirectUri a.state [("code", code)]) := trivial
        rw [answersIn_eq hplain]
        exact .coded hstage hadmitted hstore
  · cases h

theorem steps_of_token {f : Form} {now : Int64} {drawn : Except Anyhow String} {persisted : Bool}
    (h : step gw s (.token i f now drawn persisted) = some t) :
    Steps gw s (.token i f now drawn persisted) t := by
  rw [step, Option.ite_none_left_eq_some, Bool.not_eq_true, Option.isSome_eq_false_iff,
    Option.isNone_iff_eq_none] at h
  obtain ⟨hidle, h⟩ := h
  split_ifs at h
  · rw [← Option.some.inj h]
    exact .refused trivial
  · split at h
    · rw [← Option.some.inj h]
      exact .refused trivial
    · rename_i code hcode
      obtain rfl := Option.some.inj h
      exact .redeemed hidle hcode

/-- Every step is one of these. -/
theorem steps_of_step {e : OAuthEvent β ι} (h : step gw s e = some t) : Steps gw s e t := by
  cases e with
  | authorize i b q client verifier id now victims => exact steps_of_authorize h
  | confirm i b headers f now => exact steps_of_confirm h
  | discovered i doc => exact steps_of_discovered h
  | callback i b headers q now => exact steps_of_callback h
  | exchanged i reply now keys => exact steps_of_exchanged h
  | viewed i tools code victims => exact steps_of_viewed h
  | token i f now drawn persisted => exact steps_of_token h

/-! ### What can happen -/

theorem step_authorize {q : Form} {client : Except String Client} {verifier : Except Anyhow String}
    {id : String} {now : Int64} {victims : List String} {c : Client} {a : Authorization}
    {store : Store} (hidle : s.requests i = none)
    (hasked : authorization gw q client verifier now = .ok (c, a))
    (hstore : s.store.begin a id victims = some store) :
    step gw s (.authorize i b q client verifier (.ok id) now victims) =
      some (({ s with store }.does (.began b id a)).answersIn i b
        (consent gw.urls c a.redirectUri id)) := by
  simp [step, hidle, hasked, hstore]

theorem step_confirm {headers : List String} {f : Form} {now : Int64} {id : String}
    {a : Authorization} (hidle : s.requests i = none) (hown : ∀ c ∈ cookies headers, c ∈ s.jars b)
    (hok : confirmable s.store headers f now = .ok (id, a)) :
    step gw s (.confirm i b headers f now) = some (s.goes i (.confirming b id a)) := by
  rw [step, if_neg (by rw [hidle]; simpa using fun x y h => hown (x, y) h), hok]

theorem step_discovered {id : String} {a : Authorization} {doc : Discovery}
    (hstage : s.requests i = some (.confirming b id a)) :
    step gw s (.discovered i (.ok doc)) =
      some ((s.does (.confirmed b id)).answersIn i b (upstream gw id a (.ok doc))) := by
  simp [step, hstage]

theorem step_callback {headers : List String} {q : Form} {now : Int64} {id code : String}
    {a : Authorization} {store : Store} (hidle : s.requests i = none)
    (hown : ∀ c ∈ cookies headers, c ∈ s.jars b)
    (hok : returned gw s.store headers q now = (store, .ok (id, a, code))) :
    step gw s (.callback i b headers q now) =
      some (({ s with store }.does (.returned b id (exchangeForm gw a code))).goes i
        (.exchanging b id a (exchangeForm gw a code) now)) := by
  rw [step, if_neg (by rw [hidle]; simpa using fun x y h => hown (x, y) h), hok]

theorem step_exchanged {id : String} {a : Authorization} {form : List (String × String)}
    {now at_ : Int64} {reply : Except Anyhow TokenReply}
    {keys : Issuer → Option String → Except Anyhow Jwks} {login : Login}
    (hstage : s.requests i = some (.exchanging b id a form now))
    (hlogin : exchanged gw a reply at_ keys = .ok login) :
    step gw s (.exchanged i reply at_ keys) =
      some ((s.does (.signedIn b id login)).goes i (.viewing b id a (sessionOf a login) now)) := by
  simp [step, hstage, hlogin]

theorem step_viewed {id : String} {a : Authorization} {session : Session} {now : Int64}
    {tools : Except Anyhow (List ViewService)} {code : String} {victims : List String} {store : Store}
    (hstage : s.requests i = some (.viewing b id a session now))
    (hadmitted : admitted gw a tools = .ok ())
    (hstore : s.store.issueCode (grantOf a session now) code victims = some store) :
    step gw s (.viewed i tools (.ok code) victims) =
      some (({ s with store }.does (.coded b id code)).answersIn i b
        (toClient gw.urls a.redirectUri a.state [("code", code)])) := by
  simp [step, hstage, hadmitted, hstore]

theorem step_token {f : Form} {now : Int64} {drawn : Except Anyhow String} {persisted : Bool}
    {code : String} (hidle : s.requests i = none)
    (hgrant : f.get? "grant_type" = some "authorization_code") (hcode : f.get? "code" = some code) :
    step gw s (.token i f now drawn persisted) =
      some (({ s with store := (redeem gw s.store code f now drawn persisted).1 }.does
        (.redeemed code f (redeem gw s.store code f now drawn persisted).2.2)).answers i
        (redeem gw s.store code f now drawn persisted).2.1) := by
  simp [step, hidle, hgrant, hcode]

end

end OAuth

end Wires
