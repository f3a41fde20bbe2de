import WolfsslRs.TlsWire
/-!
# TlsDrive — the order in which a handshake is driven

Connect and Accept go through any number of polls, each of which may be left at three points.  What they do is always one
of three things: they call wolfSSL while it has not reported success, they offer the transport what is in `netOut`, or,
`netOut` being empty and the handshake still under way, they ask the transport for bytes.
-/
namespace Wolf
namespace Tls

open Program

/-- A move, or a transport that reports more than it was handed. -/
def Does (env : Env) (rt : Runtime) (s : TlsStream) (e : Event) (s' : TlsStream) : Prop :=
  Move env rt s (some e) s' ∨ Fault env rt s e s'

/-- **One thing a handshake does**; the flag says whether wolfSSL has reported success. -/
inductive Drive (env : Env) (rt : Runtime) : TlsStream × Bool → Option Event → TlsStream × Bool → Prop
  | call {s : TlsStream} {a : Reply SslRet} (ha : env.sslHandshake s.log = a) :
      Drive env rt (s, false) (some (.sslHandshake a.callbacks a.ret))
        (s.ran a.callbacks (.sslHandshake a.callbacks a.ret), decide (a.ret.ret = wolfsslSuccess))
  | offer {s s' : TlsStream} {done : Bool} {offered : Bytes} {r : Poll Nat}
      (h : Does env rt s (.ioWrite offered r) s') : Drive env rt (s, done) (some (.ioWrite offered r)) (s', done)
  | ask {s s' : TlsStream} {r : Poll Bytes} (hempty : s.net.netOut = []) (h : Does env rt s (.ioRead r) s') :
      Drive env rt (s, false) (some (.ioRead r)) (s', false)

abbrev Drives (env : Env) (rt : Runtime) : TlsStream × Bool → List Event → TlsStream × Bool → Prop :=
  Trace (Drive env rt)

def Event.succeeds : Event → Bool
  | .sslHandshake _ r => decide (r.ret = wolfsslSuccess)
  | _ => false

/-! ## What holds of every such run -/

section Runs

variable {env : Env} {rt : Runtime} {s s' : TlsStream} {d d' : Bool} {ev : List Event}

theorem Does.log {e : Event} (h : Does env rt s e s') : s'.log = s.log ++ [e] := by
  rcases h with h | h
  · exact h.log
  · exact h.log

theorem Does.queue {e : Event} (h : Does env rt s e s') :
    e.accepted ++ s'.net.netOut = s.net.netOut ++ e.callbacks.flatMap Callback.sent := by
  rcases h with h | h
  · simpa using h.queue
  · obtain ⟨hacc, hcb, -, hout, -⟩ := h.quiet
    rw [hacc, hcb, hout, List.nil_append, List.flatMap_nil, List.append_nil]

theorem Drive.does {m m' : TlsStream × Bool} {e : Option Event} (h : Drive env rt m e m') :
    ∃ x, e = some x ∧ Does env rt m.1 x m'.1 := by
  cases h with
  | call ha => exact ⟨_, rfl, .inl (.sslHandshake ha)⟩
  | offer h => exact ⟨_, rfl, h⟩
  | ask hempty h => exact ⟨_, rfl, h⟩

theorem Drives.log (h : Drives env rt (s, d) ev (s', d')) : s'.log = s.log ++ ev := by
  refine h.rel (R := fun u m => m.1.log = s.log ++ u) (List.append_nil _).symm ?_
  intro u m e m' hu hm
  obtain ⟨x, rfl, hx⟩ := hm.does
  rw [hx.log, hu, List.append_assoc]
  rfl

theorem Drives.queue (h : Drives env rt (s, d) ev (s', d')) :
    accepted ev ++ s'.net.netOut = s.net.netOut ++ sent ev := by
  refine Trace.queue (fun m : TlsStream × Bool => m.1.net.netOut) (fun m e m' hm => ?_) h
  obtain ⟨x, rfl, hx⟩ := hm.does
  simpa using hx.queue

/-- The flag is raised by a call that succeeds, and by nothing else. -/
theorem Drives.succeeded (h : Drives env rt (s, false) ev (s', d')) : d' = ev.any Event.succeeds := by
  refine h.rel (R := fun u m => m.2 = u.any Event.succeeds) rfl ?_
  intro u m e m' hu hm
  cases hm with
  | call ha =>
    rw [List.any_append, ← hu]
    simp [Event.succeeds]
  | offer h => rw [List.any_append, ← hu]; simp [Event.succeeds]
  | ask hempty h => rw [List.any_append, ← hu]; simp [Event.succeeds]

/-- **Once the flag is raised wolfSSL is not called again.** -/
theorem Drives.quiet (h : Drives env rt (s, true) ev (s', d')) : ∀ cb r, .sslHandshake cb r ∉ ev := by
  have hall : d' = true ∧ ∀ cb r, .sslHandshake cb r ∉ ev := by
    refine h.rel (R := fun u m => m.2 = true ∧ ∀ cb r, .sslHandshake cb r ∉ u)
      ⟨rfl, fun _ _ h => by cases h⟩ ?_
    rintro u m e m' ⟨hd, hu⟩ hm
    cases hm with
    | call ha => cases hd
    | ask hempty h => cases hd
    | offer h =>
      refine ⟨hd, fun cb r hmem => ?_⟩
      rcases List.mem_append.1 hmem with hmem | hmem
      · exact hu cb r hmem
      · cases List.mem_singleton.1 hmem
  exact hall.2

/-- **The order of a handshake**: after a call that succeeded there is no other, and when the transport is asked for bytes
it has accepted all there was to send. -/
theorem Drives.order (h : Drives env rt (s, false) ev (s', d')) :
    (∀ pre cb r post, ev = pre ++ .sslHandshake cb r :: post → r.ret = wolfsslSuccess →
        ∀ cb' r', .sslHandshake cb' r' ∉ post) ∧
      ∀ pre r post, ev = pre ++ .ioRead r :: post → accepted pre = s.net.netOut ++ sent pre := by
  constructor
  · rintro pre cb r post rfl hr
    obtain ⟨m, m', -, hstep, hpost⟩ := h.cut
    cases hstep with
    | call ha =>
      rw [hr, decide_eq_true rfl] at hpost
      exact Drives.quiet hpost
  · rintro pre r post rfl
    obtain ⟨m, m', hpre, hstep, -⟩ := h.cut
    cases hstep with
    | ask hempty _ =>
      have hq := Drives.queue hpre
      rwa [hempty, List.append_nil] at hq

end Runs

/-! ## The futures are driven so -/

section Futures

variable {env : Env} {rt : Runtime} {s s₀ : TlsStream} {h : Handshake} {d : Bool}

theorem flushNetOut_drives :
    wp (flushNetOut env) (fun r s' => (∃ ws, Drives env rt (s, d) ws (s', d)) ∧ (r = .ok () → s'.net.netOut = []))
      (fun _ s' => ∃ ws, Drives env rt (s, d) ws (s', d)) s := by
  have hoffers : ∀ {ws m}, Trace (Offer env rt) s ws m → Drives env rt (s, d) ws (m, d) := fun hws =>
    hws.image (fun m => (m, d)) (by rintro m e m' ⟨hmove, offered, r, rfl⟩; exact .offer (.inl hmove))
  refine wp_mono (fun r s' h => ?_) (fun x s' h => ?_) (flushNetOut_offers env rt s)
  · obtain ⟨ws, hws, hend⟩ := h
    exact ⟨⟨ws, hoffers hws⟩, fun hr => by subst hr; exact hend.1⟩
  · obtain ⟨-, ws, m, offered, r, hws, hfault⟩ := h
    exact ⟨_, (hoffers hws).trans (.event (.offer (.inr hfault)))⟩

theorem fillNetIn_drives (hempty : s.net.netOut = []) :
    wp (fillNetIn env rt) (fun _ s' => ∃ ws, Drives env rt (s, false) ws (s', false))
      (fun _ s' => ∃ ws, Drives env rt (s, false) ws (s', false)) s := by
  refine wp_mono (fun r s' h => ?_) (fun x s' h => ?_) (fillNetIn_asks env rt s)
  · obtain ⟨a, hmove, -⟩ := h
    exact ⟨_, .event (.ask hempty (.inl hmove))⟩
  · obtain ⟨-, a, hfault⟩ := h
    exact ⟨_, .event (.ask hempty (.inr hfault))⟩

theorem sslHandshake_drives {E : Stop → TlsStream → Prop} :
    wp (sslHandshake env)
      (fun r s' => ∃ ws, Drives env rt (s, false) ws (s', decide (r.ret = wolfsslSuccess))) E s := by
  simp only [sslHandshake, wp_bind, wp_get, wp_modify, wp_pure]
  exact ⟨_, .event (.call rfl)⟩

/-- **The stream a future holds has been driven there** from `s₀`, and the flag is `d`. -/
def Handshake.DrivenTo (env : Env) (rt : Runtime) (s₀ : TlsStream) (d : Bool) (h : Handshake) : Prop :=
  ∀ st ∈ h.state, ∃ ev, Drives env rt (s₀, false) ev (st, d)

/-- The future's own flag is the one of its history. -/
def Handshake.Driven (env : Env) (rt : Runtime) (s₀ : TlsStream) (h : Handshake) : Prop :=
  h.DrivenTo env rt s₀ h.handshakeDone

theorem Handshake.DrivenTo.driven (hto : h.DrivenTo env rt s₀ d) (hd : h.handshakeDone = d) : h.Driven env rt s₀ := by
  rw [Handshake.Driven, hd]
  exact hto

theorem onStream_drives {α : Type} {p : Task α} {f : α → Bool} {R : α → TlsStream → Prop}
    (hp : ∀ s ∈ h.state, wp p (fun a s' => (∃ ws, Drives env rt (s, d) ws (s', f a)) ∧ R a s')
      (fun _ s' => ∃ ws, Drives env rt (s, d) ws (s', d)) s)
    (hd : h.handshakeDone = d) (hdriven : h.DrivenTo env rt s₀ d) :
    wp (onStream p)
      (fun a h' => h'.DrivenTo env rt s₀ (f a) ∧ h'.handshakeDone = d ∧ ∀ st ∈ h'.state, R a st)
      (fun _ h' => h'.Driven env rt s₀) h := by
  refine wp_onStream_iff.2 ⟨fun _ => hdriven.driven hd, fun st hst => ?_⟩
  obtain ⟨ev, hev⟩ := hdriven st hst
  have hto : ∀ {st' d'}, (∃ ws, Drives env rt (st, d) ws (st', d')) →
      Handshake.DrivenTo env rt s₀ d' { h with state := some st' } := by
    rintro st' d' ⟨ws, hws⟩ st'' hs
    cases hs
    exact ⟨_, hev.trans hws⟩
  refine wp_mono (fun a st' h' => ⟨hto h'.1, hd, fun st'' hs => ?_⟩) (fun _ st' h' => (hto h').driven hd) (hp st hst)
  cases hs
  exact h'.2

/-- What an answer of the future stands for: a stream is handed over once wolfSSL has reported success and `netOut` is
empty. -/
def Handed.Drained (env : Env) (rt : Runtime) (s₀ : TlsStream) (r : Handed) (h : Handshake) : Prop :=
  h.Driven env rt s₀ ∧
    ∀ st, r = .ok st → st.net.netOut = [] ∧ ∃ ev, Drives env rt (s₀, false) ev (st, true)

theorem handOver_drives (hd : h.handshakeDone = true) (hdriven : h.DrivenTo env rt s₀ true) :
    wp (handOver env) (passes (Handshake.Driven env rt s₀) (Handed.Drained env rt s₀))
      (fun _ h' => h'.Driven env rt s₀) h := by
  simp only [handOver, wp_bind]
  refine wp_mono (fun r h' hr => ?_) (fun _ _ h => h) (onStream_drives (fun s _ => flushNetOut_drives) hd hdriven)
  obtain ⟨hto, hd', hempty⟩ := hr
  have hkept := hto.driven hd'
  cases r with
  | pending => exact ⟨hkept, fun _ h => by cases h⟩
  | err e => exact ⟨hkept, fun _ h => by cases h⟩
  | ok u =>
    simp only [wp_bind, wp_get]
    cases hst : h'.state with
    | none => exact hkept
    | some st =>
      simp only [wp_bind, wp_modify, wp_pure]
      refine ⟨fun _ hs => (by cases hs), fun st' hr => ?_⟩
      cases hr
      exact ⟨hempty st hst rfl, hto st hst⟩

/-- **One pass of the handshake loop.** -/
theorem handshakePass_drives (func : String) (hdriven : h.Driven env rt s₀) :
    wp (handshakePass env rt func) (passes (Handshake.Driven env rt s₀) (Handed.Drained env rt s₀))
      (fun _ h' => h'.Driven env rt s₀) h := by
  simp only [handshakePass, wp_bind, wp_get]
  split
  · rename_i hdone
    refine handOver_drives hdone ?_
    rw [← hdone]
    exact hdriven
  · rename_i hdone
    have hd : h.handshakeDone = false := eq_false_of_ne_true hdone
    rw [Handshake.Driven, hd] at hdriven
    simp only [wp_bind]
    refine wp_mono (fun r m hm => ?_) (fun _ _ h => h)
      (onStream_drives (R := fun _ _ => True) (fun s _ => wp_mono (fun _ _ h => ⟨h, trivial⟩) (fun _ _ h => h)
        sslHandshake_drives) hd hdriven)
    obtain ⟨hto, hmd, -⟩ := hm
    split
    · rename_i hok
      simp only [wp_bind, wp_modify]
      refine handOver_drives rfl ?_
      rwa [hok, decide_eq_true rfl] at hto
    · rename_i hno
      rw [decide_eq_false hno] at hto
      have hkept := hto.driven hmd
      split
      · exact ⟨hkept, fun _ h => by cases h⟩
      · simp only [wp_bind]
        refine wp_mono (fun r' m' hm' => ?_) (fun _ _ h => h)
          (onStream_drives (fun s _ => flushNetOut_drives) hmd hto)
        obtain ⟨hto', hmd', hempty⟩ := hm'
        have hkept' := hto'.driven hmd'
        cases r' with
        | pending => exact ⟨hkept', fun _ h => by cases h⟩
        | err e => exact ⟨hkept', fun _ h => by cases h⟩
        | ok u =>
          simp only
          split
          · simp only [wp_bind]
            refine wp_mono (fun r'' h' hf => ?_) (fun _ _ h => h)
              (onStream_drives (R := fun _ _ => True) (fun s hs => wp_mono (fun _ _ h => ⟨h, trivial⟩) (fun _ _ h => h)
                (fillNetIn_drives (hempty s hs rfl))) hmd' hto')
            have hfilled := hf.1.driven hf.2.1
            cases r'' with
            | pending => exact ⟨hfilled, fun _ h => by cases h⟩
            | err e => exact ⟨hfilled, fun _ h => by cases h⟩
            | ok u' => exact hfilled
          · exact hkept'

theorem handshakePoll_drives (func : String) (n : Nat) (hdriven : h.Driven env rt s₀) :
    wp (handshakePoll env rt func n) (Handed.Drained env rt s₀) (fun _ h' => h'.Driven env rt s₀) h :=
  wp_loop (I := Handshake.Driven env rt s₀) (E := fun _ => Handshake.Driven env rt s₀)
    (fun _ hm => handshakePass_drives func hm) (fun _ hm => hm) n h hdriven

end Futures

/-! ## Any number of polls -/

/-- The two futures: the client's `Connect` and the server's `Accept`. -/
inductive Side where
  | connect
  | accept
  deriving DecidableEq, Repr

def Side.poll (env : Env) (rt : Runtime) (n : Nat) : Side → EStateM Stop Handshake Handed
  | .connect => Connect.poll env rt n
  | .accept => Accept.poll env rt n

/-- The future a poll leaves, whether it has returned or is seen at work. -/
def left : EStateM.Result Stop Handshake Handed → Handshake
  | .ok _ h => h
  | .error _ h => h

/-- The future after polls that were followed for the given numbers of passes, whatever each of them returned. -/
def Side.polled (env : Env) (rt : Runtime) (side : Side) : List Nat → Handshake → Handshake
  | [], h => h
  | n :: ns, h => side.polled env rt ns (left ((side.poll env rt n).run h))

/-- The stream a poll of the future leaves: the one it hands over, or the one the future goes on holding. -/
def streamAfter : EStateM.Result Stop Handshake Handed → Option TlsStream
  | .ok (.ok st) _ => some st
  | .ok _ h => h.state
  | .error _ h => h.state

theorem Side.poll_drives {env : Env} {rt : Runtime} {s₀ : TlsStream} (side : Side) (n : Nat) {h : Handshake}
    (hdriven : h.Driven env rt s₀) :
    wp (side.poll env rt n) (Handed.Drained env rt s₀) (fun _ h' => h'.Driven env rt s₀) h := by
  cases side with
  | connect => exact handshakePoll_drives _ n hdriven
  | accept => exact handshakePoll_drives _ n hdriven

theorem Side.polled_driven {env : Env} {rt : Runtime} {s₀ : TlsStream} (side : Side) :
    ∀ (ns : List Nat) (h : Handshake), h.Driven env rt s₀ → (side.polled env rt ns h).Driven env rt s₀
  | [], _, hdriven => hdriven
  | n :: ns, h, hdriven => by
    rw [Side.polled]
    refine side.polled_driven ns _ ?_
    have hwp := side.poll_drives n hdriven
    cases hrun : (side.poll env rt n).run h with
    | ok r h' => exact (wp_ok hwp hrun).1
    | error e h' => exact wp_error (E := fun _ h' => h'.Driven env rt s₀) hwp hrun

/-- **How a handshake is driven**, over any number of polls of Connect or Accept and whatever transport and wolfSSL answer:
a stream handed over comes after a call that succeeded and with all output accepted; after a call that succeeded there is
no other; and whenever the transport is asked for bytes it has accepted all output produced before. -/
theorem handshake_order (env : Env) (rt : Runtime) (side : Side) (ns : List Nat) (n : Nat) (s₀ st : TlsStream)
    (hst : streamAfter ((side.poll env rt n).run (side.polled env rt ns ⟨some s₀, false⟩)) = some st) :
    ∃ ev, st.log = s₀.log ++ ev ∧
      (∀ h', (side.poll env rt n).run (side.polled env rt ns ⟨some s₀, false⟩) = .ok (.ok st) h' →
        st.net.netOut = [] ∧ accepted ev = s₀.net.netOut ++ sent ev ∧
          ∃ cb r, .sslHandshake cb r ∈ ev ∧ r.ret = wolfsslSuccess) ∧
      (∀ pre cb r post, ev = pre ++ .sslHandshake cb r :: post → r.ret = wolfsslSuccess →
        ∀ cb' r', .sslHandshake cb' r' ∉ post) ∧
      ∀ pre r post, ev = pre ++ .ioRead r :: post → accepted pre = s₀.net.netOut ++ sent pre := by
  have hstart : Handshake.Driven env rt s₀ ⟨some s₀, false⟩ := fun st hs => by cases hs; exact ⟨[], .refl⟩
  have hwp := side.poll_drives n (side.polled_driven ns _ hstart)
  cases hrun : (side.poll env rt n).run (side.polled env rt ns ⟨some s₀, false⟩) with
  | error e h' =>
    rw [hrun] at hst
    obtain ⟨ev, hev⟩ := wp_error hwp hrun st hst
    exact ⟨ev, hev.log, fun _ h => (by cases h), hev.order⟩
  | ok r h' =>
    rw [hrun] at hst
    obtain ⟨hleft, hhanded⟩ := wp_ok hwp hrun
    cases r with
    | pending =>
      obtain ⟨ev, hev⟩ := hleft st hst
      exact ⟨ev, hev.log, fun _ h => (by cases h), hev.order⟩
    | err e =>
      obtain ⟨ev, hev⟩ := hleft st hst
      exact ⟨ev, hev.log, fun _ h => (by cases h), hev.order⟩
    | ok st' =>
      cases hst
      obtain ⟨hempty, ev, hev⟩ := hhanded st rfl
      refine ⟨ev, Drives.log hev, fun _ _ => ⟨hempty, ?_, ?_⟩, Drives.order hev⟩
      · have hq := Drives.queue hev
        rwa [hempty, List.append_nil] at hq
      · obtain ⟨e, he, hs⟩ := List.any_eq_true.1 (Drives.succeeded hev).symm
        cases e with
        | sslHandshake cb r => exact ⟨cb, r, he, of_decide_eq_true hs⟩
        | _ => cases hs

/-- A peer that answers the first flight late: the first poll is `Pending`, the second completes. -/
def twoFlights : Env :=
  { slowTransport with
    ioRead := fun log => if log.length < 3 then .pending else .ok [22, 2]
    ioWrite := fun _ buf => .ok buf.length
    sslHandshake := fun log =>
      if .ioRead (.ok [22, 2]) ∈ log then ⟨[.recv 2, .send [20]], ⟨wolfsslSuccess, 0⟩⟩
      else ⟨if log = [] then [.send [22, 1]] else [], ⟨-1, wantRead⟩⟩ }

theorem handshake_order_twoFlights :
    ∃ st h', (Side.poll twoFlights .tokio 3 .connect).run
        (Side.polled twoFlights .tokio .connect [3] ⟨some newStream, false⟩) = .ok (.ok st) h' ∧
      ∃ ev, st.log = newStream.log ++ ev ∧ st.net.netOut = [] ∧ accepted ev = newStream.net.netOut ++ sent ev ∧
        ∃ cb r, .sslHandshake cb r ∈ ev ∧ r.ret = wolfsslSuccess := by
  refine ⟨_, _, rfl, ?_⟩
  obtain ⟨ev, hlog, hok, -, -⟩ := handshake_order twoFlights .tokio .connect [3] 3 newStream _ rfl
  exact ⟨ev, hlog, hok _ rfl⟩

end Tls
end Wolf
