import Wires.Framework.Run
import Wires.Impl.Dialing
import Wires.Proof.Child
import Wires.Proof.Release

/-!
# At most one host runs a call

A caller tries the next host only after a session in which it has sent no
`Hello`, or whose first frame was a `Denied` (`Dial.Left`). A host that follows
the program starts the service only behind its proof, and for a caller that sent
one (`Serving.Fits`). So of all sessions of a call only the newest can have run
the service, or been sent stdin (`Dialing.one_host`).
-/

namespace Wires

/-! ## The host's side -/

namespace Serving

variable {told said : List Frame} {next : Option Frame}

/-- The first frame was a proof, and a `Hello` came. -/
def Asked (told said : List Frame) : Prop :=
  (∃ p, said[0]? = some (.proof p)) ∧ ∃ hello, .hello hello ∈ told

theorem first_append {f : Frame} (h : said[0]? = some f) (more : List Frame) :
    (said ++ more)[0]? = some f := by
  cases said with
  | nil => cases h
  | cons g gs => exact h

theorem Asked.append (h : Asked told said) (told' said' : List Frame) :
    Asked (told ++ told') (said ++ said') := by
  obtain ⟨⟨p, hp⟩, hello, hh⟩ := h
  exact ⟨⟨p, first_append hp said'⟩, hello, List.mem_append_left told' hh⟩

theorem mem_of_received {no : Option NoFrame} {f : Frame} (h : received next no = some (.ok f)) :
    next = some f := by
  cases no with
  | some no => cases h
  | none =>
    obtain ⟨g, hg, heq⟩ := Option.map_eq_some_iff.mp h
    cases heq
    exact hg

end Serving

/-- Of a list of which only the first can be picked, at most one is. -/
theorem length_filter_le_one {α : Type} {p : α → Bool} {l : List α} (h : ∀ x ∈ l.tail, p x = false) :
    (l.filter p).length ≤ 1 := by
  cases l with
  | nil => exact Nat.zero_le 1
  | cons x xs =>
    have hnone : xs.filter p = [] := List.filter_eq_nil_iff.mpr fun y hy => by
      rw [h y hy]
      decide
    rw [List.filter_cons]
    split <;> simp [hnone]

/-- A frame of another kind is sent. -/
theorem notMem_concat {α : Type} {told : List Frame} {f : Frame} {g : α → Frame}
    (h : ∀ a, g a ∉ told) (hf : ∀ a, f ≠ g a) : ∀ a, g a ∉ told ++ [f] := by
  intro a ha
  rcases List.mem_append.mp ha with ha | ha
  · exact h a ha
  · exact hf a (List.mem_singleton.mp ha).symm

section

variable [Crypto] {root : NodeId}

namespace Serving

variable {host : ServicesHost} {issuerOf : IdToken → Except String Issuer} {caller : NodeId}
  {told said : List Frame} {next : Option Frame} {s s' : Serving root} {e : ServeEvent root}
  {wrote : Option Frame}

/-- What a host has been told and has said, by where it is. -/
def Fits (told said : List Frame) : Serving root → Prop
  | .begins => said = []
  | .proves _ _ => said = []
  | .listens _ _ => ∃ p, said[0]? = some (.proof p)
  | .refuses _ => True
  | .ended ran => ran = true → Asked told said
  | _ => Asked told said

theorem asked_of_ran (h : s.Fits told said) (hran : s.ran = true) : Asked told said := by
  cases s with
  | runs => exact h
  | ended ran => exact h hran
  | _ => cases hran

/-- More may be told. -/
theorem Fits.tell (h : s.Fits told said) (more : List Frame) : s.Fits (told ++ more) said := by
  have happend : Asked told said → Asked (told ++ more) said := fun ha => by
    have := ha.append more []
    rwa [List.append_nil] at this
  cases s with
  | begins => exact h
  | proves state proof => exact h
  | listens state opened => exact h
  | refuses reason => trivial
  | ended ran => exact fun hran => happend (h hran)
  | _ => exact happend h

theorem fits_hears {state : Held root} {opened : Bool} {got : Except NoFrame Frame}
    (h : ∃ p, said[0]? = some (.proof p)) (hgot : ∀ f, got = .ok f → f ∈ told) :
    (hears state opened got).Fits told said := by
  cases got with
  | error no => trivial
  | ok f =>
    cases f with
    | opens => cases opened <;> first | exact h | trivial
    | hello hello => exact ⟨h, hello, hgot _ rfl⟩
    | _ => trivial

theorem fits_invoked {state : Held root} {hello : Hello} {got : Except NoFrame Frame}
    (h : Asked told said) : (invoked state hello got).Fits told said := by
  cases got with
  | error no => trivial
  | ok f =>
    cases f with
    | invoke invocation => exact h
    | _ => trivial

/-- A step of a host keeps what it has been told and has said. -/
theorem fits_step (h : s.Fits told said) (hnext : ∀ f, next = some f → f ∈ told)
    (hs : s.step host issuerOf caller next e = some (s', wrote)) :
    s'.Fits told (said ++ wrote.toList) := by
  unfold step at hs
  split at hs
  · cases hs
    trivial
  · cases hs
    rw [show said = [] from h]
    rfl
  · rename_i state proof ok
    split_ifs at hs
    · cases hs
      rw [show said = [] from h]
      exact ⟨proof, rfl⟩
    · cases hs
      exact fun hran => by cases hran
  · obtain ⟨got, hgot, heq⟩ := Option.map_eq_some_iff.mp hs
    cases heq
    rw [Option.toList_none, List.append_nil]
    exact fits_hears h fun f hf => hnext f (mem_of_received (hf ▸ hgot))
  · obtain ⟨got, -, heq⟩ := Option.map_eq_some_iff.mp hs
    cases heq
    rw [Option.toList_none, List.append_nil]
    exact fits_invoked h
  · split at hs
    · cases hs
      rw [Option.toList_none, List.append_nil]
      exact h
    · cases hs
      trivial
  · rename_i ack implementation ok
    split_ifs at hs
    · cases hs
      have hasked : Asked told said := h
      have := hasked.append [] [.helloAck ack]
      rw [List.append_nil] at this
      exact this
    · cases hs
      exact fun hran => by cases hran
  · rename_i ok
    cases hs
    rw [Option.toList_none, List.append_nil]
    cases ok with
    | true => exact h
    | false => exact fun hran => by cases hran
  · rename_i f
    cases hs
    have hasked : Asked told said := h
    have := hasked.append [] [f]
    rw [List.append_nil] at this
    exact this
  · cases hs
    rw [Option.toList_none, List.append_nil]
    exact fun _ => h
  · cases hs
    exact fun hran => by cases hran
  · cases hs

end Serving

/-! ## Sessions the caller has left -/

/-- A session in which no host that follows the program runs anything: it was sent no `Hello`, or
its host refused before it showed a proof. -/
structure Dial.Left (d : Dial root) : Prop where
  nothing : (∀ hello, .hello hello ∉ d.told) ∨ ∃ reason, d.said[0]? = some (.denied reason)
  stdin : ∀ chunk, .stdin chunk ∉ d.told

theorem Dial.Left.not_ran {d : Dial root} (h : d.Left) (hfits : d.serving.Fits d.told d.said) :
    d.serving.ran = false := by
  by_contra hran
  obtain ⟨⟨p, hp⟩, hello, hh⟩ := Serving.asked_of_ran hfits (by simpa using hran)
  rcases h.nothing with hno | ⟨reason, hr⟩
  · exact hno hello hh
  · rw [hp] at hr
    cases hr

/-- No `Hello` went out yet. -/
def Opening.Unasked : Opening root → Prop
  | .silent => True
  | .opens => True
  | .greets _ => True
  | .waits none => True
  | _ => False

/-- Nothing was read yet. -/
def Opening.Unheard : Opening root → Prop
  | .silent => True
  | .opens => True
  | .greets on => on.shown = none
  | .requests on => on.shown = none
  | .waits _ => True
  | _ => False

/-- What the newest session has come to, by where its opening is. -/
structure Opening.Fits (d : Dial root) (o : Opening root) : Prop where
  stdin : ∀ chunk, .stdin chunk ∉ d.told
  unasked : o.Unasked → ∀ hello, .hello hello ∉ d.told
  unheard : o.Unheard → d.heard = 0
  left : ∀ u, o = .stopped (.unvouched u) → d.Left

theorem Opening.fits_new (peer : NodeId) : Opening.Fits (Dial.new peer) (.silent : Opening root) where
  stdin _ h := by cases h
  unasked _ _ h := by cases h
  unheard _ := rfl
  left _ h := by cases h

/-- Of a session whose call is over, only that no stdin was sent counts. -/
theorem Opening.fits_failed {d : Dial root} (h : ∀ chunk, .stdin chunk ∉ d.told) (why : Anyhow) :
    Opening.Fits d (.stopped (.failed why) : Opening root) :=
  ⟨h, False.elim, False.elim, fun _ hu => by cases hu⟩

theorem Opening.fits_stopped {d : Dial root} (h : d.Left) (stop : Stop) :
    Opening.Fits d (.stopped stop : Opening root) :=
  ⟨h.stdin, False.elim, False.elim, fun _ _ => h⟩

theorem Opening.fits_spoken {d : Dial root} (h : ∀ chunk, .stdin chunk ∉ d.told) (on : Grounds root)
    (proof : HostProof) : Opening.Fits d (.spoken on proof) :=
  ⟨h, False.elim, False.elim, fun _ hu => by cases hu⟩

/-- The caller's check after it spoke is no dial failure. -/
theorem Vouching.checkAfter_eq_error {v : Vouching root} {host : NodeId} {proof : HostProof}
    {now : Int64} {stop : Stop} (h : v.checkAfter host proof now = .error stop) :
    ∃ why, stop = .failed why := by
  unfold checkAfter at h
  split_ifs at h
  · cases hv : proof.head.verify root with
    | ok u => rw [hv] at h; cases h
    | error e =>
      rw [hv] at h
      cases h
      exact ⟨_, rfl⟩
  · dsimp only at h
    generalize hc : HostProof.check _ root v.held.view.head host now = c at h
    cases c with
    | error e =>
      cases h
      exact ⟨_, rfl⟩
    | ok standing => cases standing <;> cases h

section

variable {service : ServiceName} {argv : List String} {idToken : IdToken} {host : NodeId}
  {t t' : Talk root} {o o' : Opening root} {d d' : Dial root}

theorem Opening.fits_clock {now : Int64} (h : Opening.Fits d o)
    (hs : o.step (.call service argv) idToken host t (.clock now) = some (t', o')) :
    Opening.Fits d o' := by
  cases o with
  | silent =>
    have hno := h.unasked trivial
    have hheard := h.unheard trivial
    simp only [step] at hs
    split_ifs at hs
    · cases hs
      exact ⟨h.stdin, fun _ => hno, fun _ => hheard, fun _ hu => by cases hu⟩
    · cases hs
      exact ⟨h.stdin, fun _ => hno, fun _ => hheard, fun _ hu => by cases hu⟩
  | _ => cases hs

/-- The caller writes a frame, or fails to. -/
theorem Opening.fits_wrote {invocation : Invocation} {at_ : Int64} {r : Except Anyhow Unit}
    (h : Opening.Fits d o)
    (hs : o.step (.call service argv) idToken host t (.wrote at_ r) = some (t', o')) :
    ∃ s, t'.sent = s :: t.sent ∧
      (r = .ok () → Opening.Fits { d with told := d.told ++ (s.frame? invocation).toList } o') ∧
      (∀ e, r = .error e → Opening.Fits d o') := by
  cases o with
  | opens =>
    cases hs
    have hno := h.unasked trivial
    refine ⟨_, rfl, fun hr => ?_, fun e he => ?_⟩
    · subst hr
      refine ⟨notMem_concat h.stdin (fun chunk hc => by cases hc), fun _ => ?_,
        fun _ => h.unheard trivial, fun _ hu => by cases hu⟩
      exact notMem_concat hno fun hello hc => by cases hc
    · subst he
      exact Opening.fits_stopped ⟨.inl hno, h.stdin⟩ _
  | greets on =>
    cases hs
    refine ⟨_, rfl, fun hr => ?_, fun e he => ?_⟩
    · subst hr
      exact ⟨notMem_concat h.stdin (fun chunk hc => by cases hc), False.elim,
        fun hnone => h.unheard hnone, fun _ hu => by cases hu⟩
    · subst he
      exact Opening.fits_failed h.stdin e
  | requests on =>
    cases hs
    refine ⟨_, rfl, fun hr => ?_, fun e he => ?_⟩
    · subst hr
      have hstdin : ∀ chunk, .stdin chunk ∉ d.told ++ [.invoke invocation] :=
        notMem_concat h.stdin fun chunk hc => by cases hc
      cases hshown : on.shown with
      | none => exact ⟨hstdin, False.elim, fun _ => h.unheard hshown, fun _ hu => by cases hu⟩
      | some proof => exact Opening.fits_spoken hstdin on proof
    · subst he
      exact Opening.fits_failed h.stdin e
  | _ => cases hs

/-- The caller reads the first frame, or none. A caller that spoke at once goes on to the next host
only when it was refused, and then that is the session's first frame. -/
theorem Opening.fits_first {atOnce : Option (Grounds root)} {frame : FirstFrame} {now : Int64}
    {refreshed : Refreshed root} (h : Opening.Fits d (.waits atOnce)) (htold : d'.told = d.told)
    (hsaid : d'.said = d.said)
    (hdenied : ∀ reason, frame = .denied reason → d.said[0]? = some (.denied reason))
    (hs : heard (.call service argv) host t atOnce frame now refreshed = (t', o')) :
    Opening.Fits d' o' := by
  have hstdin : ∀ chunk, .stdin chunk ∉ d'.told := htold ▸ h.stdin
  cases atOnce with
  | none =>
    have hno : ∀ hello, .hello hello ∉ d'.told := htold ▸ h.unasked trivial
    have hquiet : d'.Left := ⟨.inl hno, hstdin⟩
    cases frame with
    | proof p =>
      simp only [heard] at hs
      split at hs
      · cases hs
        exact Opening.fits_stopped hquiet _
      · cases hs
        exact ⟨hstdin, fun _ => hno, (fun hnone => by cases hnone), fun _ hu => by cases hu⟩
    | _ =>
      cases hs
      exact Opening.fits_stopped hquiet _
  | some on =>
    cases frame with
    | proof p =>
      simp only [heard] at hs
      split at hs
      · rename_i v stop hcheck
        cases hs
        obtain ⟨why, rfl⟩ := Vouching.checkAfter_eq_error (Vouching.keeping_eq_error.mp hcheck).1
        exact Opening.fits_failed hstdin why
      · cases hs
        exact Opening.fits_spoken hstdin on p
    | denied reason =>
      cases hs
      exact Opening.fits_stopped ⟨.inr ⟨reason, hsaid ▸ hdenied reason rfl⟩, hstdin⟩ _
    | _ =>
      cases hs
      exact Opening.fits_failed hstdin _

end

/-! ## Steps of the caller -/

section

variable {service : ServiceName} {argv : List String} {idToken : IdToken} {c c' : ServiceCall root}

theorem ServiceCall.step_speak {e : SpeakEvent root}
    (h : c.step service argv idToken (.speak e) = some c') :
    ∃ targets host o t o', c.stage = .speaking targets host o ∧
      o.step (.call service argv) idToken host c.talk e = some (t, o') ∧
      c' = c.opened targets host t o' := by
  simp only [step] at h
  split at h
  · rename_i targets host o hstage
    obtain ⟨⟨t, o'⟩, hstep, rfl⟩ := Option.map_eq_some_iff.mp h
    exact ⟨targets, host, o, t, o', hstage, hstep, rfl⟩
  · cases h

theorem ServiceCall.step_answer {a : CallAnswer}
    (h : c.step service argv idToken (.answer a) = some c') :
    ∃ host on proof, c.stage = .awaits host on proof ∧
      c' = { c with stage := c.answered service host on proof a } := by
  simp only [step] at h
  split at h
  · cases h
    exact ⟨_, _, _, ‹_›, rfl⟩
  · cases h

theorem ServiceCall.step_stdin {chunk : List UInt8}
    (h : c.step service argv idToken (.stdin chunk) = some c') :
    ∃ host on proof ack, c.stage = .bridges host on proof ack ∧
      c' = { c with talk := c.talk.send (.stdin host chunk) } := by
  simp only [step] at h
  split at h
  · cases h
    exact ⟨_, _, _, _, ‹_›, rfl⟩
  · cases h

theorem ServiceCall.step_ends {result : Except Anyhow Unit}
    (h : c.step service argv idToken (.ends result) = some c') :
    (∃ host on proof ack, c.stage = .bridges host on proof ack) ∧
      c' = { c with stage := .ended result } := by
  simp only [step] at h
  split at h
  · cases h
    exact ⟨⟨_, _, _, _, ‹_›⟩, rfl⟩
  · cases h

theorem ServiceCall.talk_opened (targets : List NodeId) (host : NodeId) (t : Talk root)
    (o : Opening root) : (c.opened targets host t o).talk = t := by
  unfold opened
  split <;> rfl

end

/-! ## All sessions of a call -/

/-- By where the call is: every session, or every session but the newest, is left. -/
def CallStage.Fits (dials : List (Dial root)) : CallStage root → Prop
  | .dialing _ => ∀ d ∈ dials, d.Left
  | .speaking _ _ o => ∃ d ds, dials = d :: ds ∧ o.Fits d ∧ ∀ e ∈ ds, e.Left
  | _ => ∀ d ∈ dials.tail, d.Left

/-- A session of which the other peer has made more. -/
structure Dial.Grows (d d' : Dial root) : Prop where
  told : d'.told = d.told
  heard : d'.heard = d.heard
  said : ∃ more, d'.said = d.said ++ more

variable {d d' : Dial root} {dials : List (Dial root)}

theorem Dial.Left.grows (h : d.Left) (hg : d.Grows d') : d'.Left := by
  obtain ⟨more, hsaid⟩ := hg.said
  refine ⟨?_, hg.told ▸ h.stdin⟩
  rcases h.nothing with hno | ⟨reason, hr⟩
  · exact .inl (hg.told ▸ hno)
  · exact .inr ⟨reason, by rw [hsaid]; exact Serving.first_append hr more⟩

theorem Opening.Fits.grows {o : Opening root} (h : o.Fits d) (hg : d.Grows d') : o.Fits d' where
  stdin := hg.told ▸ h.stdin
  unasked ho := hg.told ▸ h.unasked ho
  unheard ho := hg.heard.trans (h.unheard ho)
  left u hu := (h.left u hu).grows hg

theorem left_set {i : Nat} (h : ∀ e ∈ dials, e.Left) (hi : dials[i]? = some d) (hg : d.Grows d') :
    ∀ e ∈ dials.set i d', e.Left := by
  intro e he
  rcases List.mem_or_eq_of_mem_set he with he | rfl
  · exact h e he
  · exact (h d (List.mem_of_getElem? hi)).grows hg

theorem CallStage.Fits.set {stage : CallStage root} {i : Nat} (h : stage.Fits dials)
    (hi : dials[i]? = some d) (hg : d.Grows d') : stage.Fits (dials.set i d') := by
  have htail : (∀ e ∈ dials.tail, e.Left) → ∀ e ∈ (dials.set i d').tail, e.Left := fun h => by
    cases dials with
    | nil => cases hi
    | cons e es =>
      cases i with
      | zero => exact h
      | succ i => exact left_set h hi hg
  cases stage with
  | dialing targets => exact left_set h hi hg
  | speaking targets host o =>
    obtain ⟨e, es, rfl, ho, hes⟩ := h
    cases i with
    | zero =>
      cases hi
      exact ⟨d', es, rfl, ho.grows hg, hes⟩
    | succ i => exact ⟨e, es.set i d', rfl, ho, left_set hes hi hg⟩
  | awaits host on proof => exact htail h
  | bridges host on proof ack => exact htail h
  | ended why => exact htail h

/-- Where the newest session's opening comes to, the call goes. -/
theorem CallStage.fits_opened {c : ServiceCall root} {targets : List NodeId} {host : NodeId}
    {t : Talk root} {o : Opening root} (ho : o.Fits d) (hds : ∀ e ∈ dials, e.Left) :
    (c.opened targets host t o).stage.Fits (d :: dials) := by
  have hall : d.Left → ∀ e ∈ d :: dials, e.Left := fun hd e he => by
    rcases List.mem_cons.mp he with rfl | he
    · exact hd
    · exact hds e he
  cases o with
  | stopped why =>
    cases why with
    | unvouched u => exact hall (ho.left u rfl)
    | failed why => exact hds
  | spoken on proof => exact hds
  | _ => exact ⟨d, dials, rfl, ho, hds⟩

theorem CallStage.fits_answered {service : ServiceName} {c : ServiceCall root} {host : NodeId}
    {on : Grounds root} {proof : HostProof} {answer : CallAnswer}
    (h : ∀ e ∈ dials.tail, e.Left) : (c.answered service host on proof answer).Fits dials := by
  unfold ServiceCall.answered
  split
  · split <;> exact h
  all_goals exact h

namespace Dialing

variable {hosts : NodeId → Option ServicesHost} {issuerOf : IdToken → Except String Issuer}
  {caller : NodeId} {invocation : Invocation} {idToken : IdToken} {a b : Dialing root}

/-- What holds throughout a call: of its sessions, and of every host that follows the program. -/
structure Good (hosts : NodeId → Option ServicesHost) (a : Dialing root) : Prop where
  stage : a.call.stage.Fits a.dials
  serving : ∀ d ∈ a.dials, (hosts d.peer).isSome = true → d.serving.Fits d.told d.said

theorem good_start (vouch : Vouching root) (targets : List NodeId) :
    (start vouch targets).Good hosts :=
  ⟨fun d h => (by cases h), fun d h => by cases h⟩

/-- The caller writes on the newest session. -/
theorem Good.tell {dials : List (Dial root)} {call : ServiceCall root} {more : List Frame}
    (h : a.Good hosts) (hd : a.dials = d :: dials)
    (hstage : call.stage.Fits ({ d with told := d.told ++ more } :: dials)) :
    Good hosts ⟨call, { d with told := d.told ++ more } :: dials⟩ := by
  refine ⟨hstage, fun e he hh => ?_⟩
  rcases List.mem_cons.mp he with rfl | he
  · exact (h.serving d (by rw [hd]; exact List.mem_cons_self) hh).tell more
  · exact h.serving e (by rw [hd]; exact List.mem_cons_of_mem d he) hh

theorem next_eq_some {f : Frame} {dials : List (Dial root)} (h : a.next = some (f, dials)) :
    ∃ d ds, a.dials = d :: ds ∧ d.said[d.heard]? = some f ∧
      dials = { d with heard := d.heard + 1 } :: ds := by
  unfold next at h
  split at h
  · obtain ⟨g, hg, heq⟩ := Option.map_eq_some_iff.mp h
    cases heq
    exact ⟨_, _, ‹_›, hg, rfl⟩
  · cases h

/-- The caller reads on the newest session. -/
theorem Good.hear {dials : List (Dial root)} {call : ServiceCall root} (h : a.Good hosts)
    (hd : a.dials = d :: dials)
    (hstage : call.stage.Fits ({ d with heard := d.heard + 1 } :: dials)) :
    Good hosts ⟨call, { d with heard := d.heard + 1 } :: dials⟩ := by
  refine ⟨hstage, fun e he hh => ?_⟩
  rcases List.mem_cons.mp he with rfl | he
  · exact h.serving d (by rw [hd]; exact List.mem_cons_self) hh
  · exact h.serving e (by rw [hd]; exact List.mem_cons_of_mem d he) hh

/-- A step of the other peer of a session. -/
theorem Good.grows {i : Nat} (h : a.Good hosts) (hi : a.dials[i]? = some d) (hg : d.Grows d')
    (hfits : (hosts d'.peer).isSome = true → d'.serving.Fits d'.told d'.said) :
    Good hosts { a with dials := a.dials.set i d' } := by
  refine ⟨h.stage.set hi hg, fun e he hh => ?_⟩
  rcases List.mem_or_eq_of_mem_set he with he | rfl
  · exact h.serving e he hh
  · exact hfits hh

theorem good_serves {e : ServeEvent root} (hs : serves hosts issuerOf caller d e = some d')
    (h : (hosts d.peer).isSome = true → d.serving.Fits d.told d.said) :
    d.Grows d' ∧ ((hosts d'.peer).isSome = true → d'.serving.Fits d'.told d'.said) := by
  obtain ⟨host, hhost, hs⟩ := Option.bind_eq_some_iff.mp hs
  obtain ⟨⟨serving, wrote⟩, hstep, hs⟩ := Option.bind_eq_some_iff.mp hs
  cases hs
  refine ⟨⟨rfl, rfl, wrote.toList, rfl⟩, fun _ => ?_⟩
  exact Serving.fits_step (h (by rw [hhost]; rfl)) (fun f hf => List.mem_of_getElem? hf) hstep

theorem good_connect {peer : Except String NodeId} (h : a.Good hosts)
    (hs : a.step hosts issuerOf caller invocation idToken (.connect peer) = some b) :
    b.Good hosts := by
  obtain ⟨call, hcall, rfl⟩ := Option.map_eq_some_iff.mp hs
  have hstage := h.stage
  unfold callStep ServiceCall.step at hcall
  simp only at hcall
  split at hcall
  · rename_i hdial
    cases hcall
    rw [hdial] at hstage
    exact ⟨fun e he => hstage e (List.mem_of_mem_tail he), h.serving⟩
  · rename_i target targets hdial
    rw [hdial] at hstage
    split at hcall
    · rename_i host
      cases hcall
      refine ⟨⟨Dial.new host, a.dials, rfl, Opening.fits_new host, hstage⟩, fun e he hh => ?_⟩
      rcases List.mem_cons.mp he with rfl | he
      · rfl
      · exact h.serving e he hh
    · cases hcall
      exact ⟨hstage, h.serving⟩
  · cases hcall

theorem good_step {e : DialingEvent root} (h : a.Good hosts)
    (hs : a.step hosts issuerOf caller invocation idToken e = some b) : b.Good hosts := by
  have hstage := h.stage
  cases e with
  | connect peer => exact good_connect h hs
  | clock now =>
    obtain ⟨call, hcall, rfl⟩ := Option.map_eq_some_iff.mp hs
    obtain ⟨targets, host, o, t, o', hspeak, hstep, rfl⟩ := ServiceCall.step_speak hcall
    rw [hspeak] at hstage
    obtain ⟨d, ds, hdials, ho, hds⟩ := hstage
    refine ⟨?_, h.serving⟩
    show CallStage.Fits a.dials _
    rw [hdials]
    exact CallStage.fits_opened (Opening.fits_clock ho hstep) hds
  | wrote at_ r =>
    obtain ⟨call, hcall, rfl⟩ := Option.map_eq_some_iff.mp hs
    obtain ⟨targets, host, o, t, o', hspeak, hstep, rfl⟩ := ServiceCall.step_speak hcall
    rw [hspeak] at hstage
    obtain ⟨d, ds, hdials, ho, hds⟩ := hstage
    obtain ⟨s, hsent, hok, herror⟩ := @Opening.fits_wrote _ _ _ _ _ _ _ _ _ _ d invocation at_ r ho hstep
    cases r with
    | ok u =>
      have hwrites : a.writes invocation (a.call.opened targets host t o') =
          ⟨a.call.opened targets host t o',
            { d with told := d.told ++ (s.frame? invocation).toList } :: ds⟩ := by
        unfold writes
        rw [hdials, ServiceCall.talk_opened, hsent]
      show Good hosts (a.writes invocation _)
      rw [hwrites]
      exact h.tell hdials (CallStage.fits_opened (hok rfl) hds)
    | error e =>
      refine ⟨?_, h.serving⟩
      show CallStage.Fits a.dials _
      rw [hdials]
      exact CallStage.fits_opened (herror e rfl) hds
  | first no now refreshed =>
    cases no with
    | none =>
      obtain ⟨⟨f, dials⟩, hnext, hs⟩ := Option.bind_eq_some_iff.mp hs
      obtain ⟨call, hcall, hs⟩ := Option.bind_eq_some_iff.mp hs
      cases hs
      obtain ⟨d, ds, hdials, hf, rfl⟩ := next_eq_some hnext
      obtain ⟨targets, host, o, t, o', hspeak, hstep, rfl⟩ := ServiceCall.step_speak hcall
      rw [hspeak, hdials] at hstage
      obtain ⟨d', ds', heq, ho, hds⟩ := hstage
      cases heq
      refine h.hear hdials (CallStage.fits_opened ?_ hds)
      cases o with
      | waits atOnce =>
        have hheard := ho.unheard trivial
        rw [hheard] at hf
        refine Opening.fits_first ho rfl rfl (fun reason hr => ?_) (Option.some.inj hstep)
        cases f with
        | denied reason' =>
          cases hr
          exact hf
        | _ => cases hr
      | _ => cases hstep
    | some no =>
      obtain ⟨call, hcall, rfl⟩ := Option.map_eq_some_iff.mp hs
      obtain ⟨targets, host, o, t, o', hspeak, hstep, rfl⟩ := ServiceCall.step_speak hcall
      rw [hspeak] at hstage
      obtain ⟨d, ds, hdials, ho, hds⟩ := hstage
      refine ⟨?_, h.serving⟩
      show CallStage.Fits a.dials _
      rw [hdials]
      refine CallStage.fits_opened ?_ hds
      cases o with
      | waits atOnce =>
        refine Opening.fits_first ho rfl rfl (fun reason hr => ?_) (Option.some.inj hstep)
        cases no <;> cases hr
      | _ => cases hstep
  | answer no =>
    cases no with
    | none =>
      obtain ⟨⟨f, dials⟩, hnext, hs⟩ := Option.bind_eq_some_iff.mp hs
      obtain ⟨call, hcall, hs⟩ := Option.bind_eq_some_iff.mp hs
      cases hs
      obtain ⟨d, ds, hdials, hf, rfl⟩ := next_eq_some hnext
      obtain ⟨host, on, proof, hawaits, rfl⟩ := ServiceCall.step_answer hcall
      rw [hawaits, hdials] at hstage
      exact h.hear hdials (CallStage.fits_answered hstage)
    | some no =>
      obtain ⟨answer, -, hs⟩ := Option.bind_eq_some_iff.mp hs
      obtain ⟨call, hcall, hs⟩ := Option.bind_eq_some_iff.mp hs
      cases hs
      obtain ⟨host, on, proof, hawaits, rfl⟩ := ServiceCall.step_answer hcall
      rw [hawaits] at hstage
      exact ⟨CallStage.fits_answered hstage, h.serving⟩
  | stdin chunk =>
    obtain ⟨call, hcall, rfl⟩ := Option.map_eq_some_iff.mp hs
    obtain ⟨host, on, proof, ack, hbridges, rfl⟩ := ServiceCall.step_stdin hcall
    rw [hbridges] at hstage
    cases hdials : a.dials with
    | nil =>
      unfold writes
      rw [hdials]
      refine ⟨?_, fun e he => by cases he⟩
      show CallStage.Fits [] a.call.stage
      rw [hbridges]
      exact fun e he => by cases he
    | cons d ds =>
      rw [hdials] at hstage
      unfold writes
      rw [hdials]
      refine h.tell hdials ?_
      show CallStage.Fits _ a.call.stage
      rw [hbridges]
      exact hstage
  | ends result =>
    obtain ⟨call, hcall, rfl⟩ := Option.map_eq_some_iff.mp hs
    obtain ⟨⟨host, on, proof, ack, hbridges⟩, rfl⟩ := ServiceCall.step_ends hcall
    rw [hbridges] at hstage
    exact ⟨hstage, h.serving⟩
  | host i e =>
    obtain ⟨d, hi, hs⟩ := Option.bind_eq_some_iff.mp hs
    obtain ⟨d', hserves, hs⟩ := Option.bind_eq_some_iff.mp hs
    cases hs
    obtain ⟨hg, hfits⟩ := good_serves hserves (h.serving d (List.mem_of_getElem? hi))
    exact h.grows hi hg hfits
  | peer i f =>
    obtain ⟨d, hi, hs⟩ := Option.bind_eq_some_iff.mp hs
    split_ifs at hs with hh
    cases hs
    exact h.grows hi ⟨rfl, rfl, [f], rfl⟩ fun hsome => absurd hsome hh

/-! ## Whole calls -/

/-- Of a call's sessions, all but the newest are left. -/
theorem left_of_tail (h : a.Good hosts) : ∀ d ∈ a.dials.tail, d.Left := by
  have hstage := h.stage
  cases hs : a.call.stage with
  | dialing targets =>
    rw [hs] at hstage
    exact fun d hd => hstage d (List.mem_of_mem_tail hd)
  | speaking targets host o =>
    rw [hs] at hstage
    obtain ⟨d, ds, hdials, -, hds⟩ := hstage
    rw [hdials]
    exact hds
  | awaits host on proof => rw [hs] at hstage; exact hstage
  | bridges host on proof ack => rw [hs] at hstage; exact hstage
  | ended why => rw [hs] at hstage; exact hstage

/-- A frame of the caller's stdin. -/
def isStdin : Frame → Bool
  | .stdin _ => true
  | _ => false

/-- Whatever the candidates and their order, whatever the hosts do and whichever reads and writes
fail: of the sessions of one call, at most one with a host that follows the program has started the
service, and at most one was sent any stdin. -/
theorem one_host {vouch : Vouching root} {targets : List NodeId} {es : List (DialingEvent root)}
    (h : run (step hosts issuerOf caller invocation idToken) (start vouch targets) es = some a) :
    (a.dials.filter fun d => (hosts d.peer).isSome && d.serving.ran).length ≤ 1 ∧
      (a.dials.filter fun d => d.told.any isStdin).length ≤ 1 := by
  have hgood : a.Good hosts :=
    run_invariant (fun _ _ _ hs he => good_step hs he) (good_start vouch targets) h
  have hleft := left_of_tail hgood
  refine ⟨length_filter_le_one fun d hd => ?_, length_filter_le_one fun d hd => ?_⟩
  · rw [Bool.and_eq_false_iff]
    by_cases hh : (hosts d.peer).isSome = true
    · have hfits := hgood.serving d (List.mem_of_mem_tail hd) hh
      exact .inr ((hleft d hd).not_ran hfits)
    · exact .inl (by simpa using hh)
  · rw [List.any_eq_false]
    intro f hf hstdin
    cases f with
    | stdin chunk => exact (hleft d hd).stdin chunk hf
    | _ => cases hstdin

end Dialing

end

namespace Dialing

/-! ## A call that is refused, and then served -/

section

variable [Crypto] {root : NodeId} {vouch : Vouching root} {peer caller : NodeId} {now : Int64}
  {host : ServicesHost} {issuerOf : IdToken → Except String Issuer} {keys : Keys}
  {state : Held root} {invocation : Invocation} {idToken : IdToken}

/-- A session the caller speaks on at once. -/
def speaks (peer : NodeId) (now : Int64) : List (DialingEvent root) :=
  [.connect (.ok peer), .clock now, .wrote now (.ok ()), .wrote now (.ok ())]

/-- Its host cannot use its policy. -/
def refused (now : Int64) : List (DialingEvent root) :=
  [.host 0 (.policy (.error []) ⟨[]⟩ now), .host 0 (.wrote true), .first none now .timedOut]

/-- Its host starts the service. -/
def served (state : Held root) (keys : Keys) (now : Int64) : List (DialingEvent root) :=
  [.host 0 (.policy (.ok state) ⟨[]⟩ now), .host 0 (.wrote true), .host 0 (.reads none),
    .host 0 (.reads none), .host 0 (.decides keys now), .host 0 (.wrote true), .host 0 (.spawned true)]

/-- A session on which the caller has spoken. -/
def spoken (peer : NodeId) (v : StateVersion) (idToken : IdToken) (invocation : Invocation) :
    Dial root :=
  { Dial.new peer with told := [.hello ⟨v, idToken⟩, .invoke invocation] }

theorem run_speaks (hready : vouch.ready peer now = true) (sent : List (Sent root))
    (failures : List String) (lapsed : Nat) (targets : List NodeId) (dials : List (Dial root)) :
    ∃ sent', run (step (fun _ => some host) issuerOf caller invocation idToken)
      ⟨⟨⟨vouch, sent⟩, failures, lapsed, .dialing (peer :: targets)⟩, dials⟩ (speaks peer now) =
      some ⟨⟨⟨vouch, sent'⟩, failures, lapsed,
        .speaking targets peer (.waits (some ⟨vouch.held, now, vouch.held, none⟩))⟩,
        spoken peer vouch.version idToken invocation :: dials⟩ := by
  have hclock : step (fun _ => some host) issuerOf caller invocation idToken
      ⟨⟨⟨vouch, sent⟩, failures, lapsed, .speaking targets peer .silent⟩, Dial.new peer :: dials⟩
      (.clock now) = some ⟨⟨⟨vouch, sent⟩, failures, lapsed,
        .speaking targets peer (.greets ⟨vouch.held, now, vouch.held, none⟩)⟩,
        Dial.new peer :: dials⟩ := by
    simp only [step, callStep, ServiceCall.step, Opening.step, hready, if_true, Option.map_some,
      ServiceCall.opened]
  exact ⟨_, run_cons.mpr ⟨_, rfl, run_cons.mpr ⟨_, hclock, rfl⟩⟩⟩

theorem run_refused (sent : List (Sent root)) (failures : List String) (lapsed : Nat)
    (targets : List NodeId) (on : Grounds root) (v : StateVersion) (dials : List (Dial root)) :
    ∃ failures' d, run (step (fun _ => some host) issuerOf caller invocation idToken)
      ⟨⟨⟨vouch, sent⟩, failures, lapsed, .speaking targets peer (.waits (some on))⟩,
        spoken peer v idToken invocation :: dials⟩ (refused now) = some ⟨⟨⟨vouch, sent⟩, failures', lapsed, .dialing targets⟩, d :: dials⟩ ∧
      d.serving.ran = false := ⟨_, _, rfl, rfl⟩

theorem run_served {admitted : Admitted} {implementation : Implementation}
    (hanswer : host.answerCall issuerOf keys state caller idToken invocation.service now =
      .ok (admitted, implementation)) (call : ServiceCall root) (v : StateVersion) (dials : List (Dial root)) :
    ∃ d, run (step (fun _ => some host) issuerOf caller invocation idToken)
      ⟨call, spoken peer v idToken invocation :: dials⟩ (served state keys now) = some ⟨call, d :: dials⟩ ∧
      d.serving.ran = true := by
  have hdecides : ∀ d : Dial root, step (fun _ => some host) issuerOf caller invocation idToken
      ⟨call, { d with serving := .decides state ⟨v, idToken⟩ invocation } :: dials⟩
      (.host 0 (.decides keys now)) = some ⟨call, { d with
        taken := d.taken + 0
        said := d.said ++ []
        serving := .acks (state.ack ⟨v, idToken⟩ invocation.service) implementation } :: dials⟩ := by
    intro d
    show Option.bind (Option.bind (Serving.step _ _ _ _ _ _) _) _ = _
    rw [Serving.step, hanswer]
    rfl
  exact ⟨_, run_cons.mpr ⟨_, rfl, run_cons.mpr ⟨_, rfl, run_cons.mpr ⟨_, rfl, run_cons.mpr ⟨_, rfl,
    run_cons.mpr ⟨_, hdecides ⟨peer, _, _, _, _, .begins⟩, rfl⟩⟩⟩⟩⟩, rfl⟩
end

section Sample

attribute [local instance] Crypto.plain

open ServicesHost

def sampleInvocation : Invocation := ⟨sampleName, ⟨[], by decide⟩⟩

/-- A host with one service, for which Alice's token gets a call. -/
def sampleServer : ServicesHost := ⟨sampleNode 2, sampleHostJson.config, []⟩

theorem answerCall_sample : sampleServer.answerCall .ok alicesKeys loudHeld (sampleNode 4) "idp"
    sampleInvocation.service 5 =
      .ok (⟨analystRole, 1, "idp", alice⟩, .command sampleCommand.toServiceImpl) := rfl

/-- Node 2 is dialed twice, is sent a `Hello` and an `Invoke` each time, and cannot use its policy
the first time. -/
theorem one_host_sample : ∃ (fresh : FreshSet) (a : Dialing (nodeId sampleRoot)),
    run (step (fun _ => some sampleServer) .ok (sampleNode 4) sampleInvocation "idp")
      (start (sampleVouching fresh) [sampleNode 2, sampleNode 2])
      (speaks (sampleNode 2) 5 ++ (refused 5 ++ (speaks (sampleNode 2) 5 ++
        served loudHeld alicesKeys 5))) = some a ∧
    a.dials.map (fun d => d.serving.ran) = [true, false] ∧
    (a.dials.filter fun d => ((fun _ => some sampleServer : NodeId → Option ServicesHost) d.peer).isSome
      && d.serving.ran).length ≤ 1 := by
  obtain ⟨w, hready⟩ := exists_ready_sample
  obtain ⟨sent₁, h₁⟩ := run_speaks hready [] [] 0 [sampleNode 2] []
  obtain ⟨failures, left, h₂, hleft⟩ := run_refused sent₁ [] 0 [sampleNode 2]
    ⟨(sampleVouching ⟨[w]⟩).held, 5, (sampleVouching ⟨[w]⟩).held, none⟩
    (sampleVouching ⟨[w]⟩).version []
  obtain ⟨sent₂, h₃⟩ := run_speaks hready sent₁ failures 0 [] [left]
  obtain ⟨ran, h₄, hran⟩ := run_served answerCall_sample _ (sampleVouching ⟨[w]⟩).version [left]
  have hrun := run_append.mpr ⟨_, h₁, run_append.mpr ⟨_, h₂, run_append.mpr ⟨_, h₃, h₄⟩⟩⟩
  refine ⟨⟨[w]⟩, _, hrun, ?_, (one_host hrun).1⟩
  rw [List.map_cons, List.map_cons, List.map_nil, hran, hleft]

end Sample

end Dialing

end Wires
