import WolfsslRs.TlsWire
/-!
# TlsWake — a pending poll has been promised a wake-up

A poll hands its context to every poll of the transport it makes.  It returns `Pending` only where the transport did so in
the course of the same call, so that the transport holds the context's waker; this is true of the stream's polls and of
the futures that drive a handshake.
-/
namespace Wolf
namespace Tls

open Program

/-- The transport was polled after `log` and said it was not ready. -/
def Event.pendingAt (env : Env) (log : List Event) : Event → Prop
  | .ioRead r => r = .pending ∧ env.ioRead log = .pending
  | .ioWrite offered r => r = .pending ∧ env.ioWrite log offered = .pending
  | .ioShutdown r => r = .pending ∧ env.ioShutdown log = .pending
  | _ => False

/-- **In the course of a call, from `s` to `s'`, the transport said it was not ready.** -/
def Stalled (env : Env) (s s' : TlsStream) : Prop :=
  ∃ pre e post, s'.log = s.log ++ (pre ++ e :: post) ∧ e.pendingAt env (s.log ++ pre)

variable {env : Env} {rt : Runtime}

theorem Move.pendingAt {s s' : TlsStream} {e : Event} (h : Move env rt s (some e) s') (hstall : e.stalls = true) :
    e.pendingAt env s.log := by
  cases h with
  | @ioRead r hr hfits => cases r <;> first | exact ⟨rfl, hr⟩ | cases hstall
  | @ioWrite r hr hfits => cases r <;> first | exact ⟨rfl, hr⟩ | cases hstall
  | @ioShutdown r hr hempty hsent => cases r <;> first | exact ⟨rfl, hr⟩ | cases hstall
  | _ => cases hstall

theorem Polled.stalled {s s' : TlsStream} (h : Polled env rt true s s') : Stalled env s s' := by
  obtain ⟨ev, hev, hany⟩ := h
  obtain ⟨e, he, hstall⟩ := List.any_eq_true.1 (hany rfl)
  obtain ⟨pre, post, rfl⟩ := List.append_of_mem he
  obtain ⟨m, m', hpre, hmove, -⟩ := hev.cut
  refine ⟨pre, e, post, hev.log, ?_⟩
  rw [← Moves.log hpre]
  exact hmove.pendingAt hstall

/-! ## The handshake futures -/

/-- The future has polled the stream it holds. -/
def Handshake.Polled (env : Env) (rt : Runtime) (pending : Bool) (h h' : Handshake) : Prop :=
  ∃ st st', h.state = some st ∧ h'.state = some st' ∧ Tls.Polled env rt pending st st'

theorem Handshake.Polled.after {b b' : Bool} {h m h' : Handshake} (hm : h.Polled env rt b m)
    (hh : m.Polled env rt b' h') : h.Polled env rt b' h' := by
  obtain ⟨st, st', hs, hs', hp⟩ := hm
  obtain ⟨st₁, st₂, hs₁, hs₂, hp'⟩ := hh
  cases hs'.symm.trans hs₁
  exact ⟨st, st₂, hs, hs₂, hp.after hp'⟩

theorem onStream_polled {α : Type} {p : Task α} {f : α → Bool}
    (hp : ∀ s, wp p (fun a s' => Polled env rt (f a) s s') (Leaves env rt s) s) (h : Handshake) :
    wp (onStream p) (fun a h' => h.Polled env rt (f a) h') (fun _ _ => True) h := by
  refine wp_onStream_iff.2 ⟨fun _ => trivial, fun st hst => ?_⟩
  exact wp_mono (fun a st' h => ⟨st, st', hst, rfl, h⟩) (fun _ _ _ => trivial) (hp st)

theorem sslHandshake_moves (rt : Runtime) (s : TlsStream) :
    wp (sslHandshake env) (fun _ s' => Polled env rt false s s') (Leaves env rt s) s := by
  simp only [sslHandshake, wp_bind, wp_get, wp_modify, wp_pure]
  exact (Move.sslHandshake rfl).polled

/-- What one pass of the handshake loop ends in: the stream polled, and stalled if the future is to be `Pending`. -/
def Handed.Accounted (env : Env) (rt : Runtime) (h : Handshake) (r : Handed) (h' : Handshake) : Prop :=
  r = .pending → h.Polled env rt true h'

theorem handOver_accounted (rt : Runtime) (h : Handshake) :
    wp (handOver env) (passes (h.Polled env rt false) (Handed.Accounted env rt h)) (fun _ _ => True) h := by
  simp only [handOver, wp_bind]
  refine wp_mono (fun r h' hr => ?_) (fun _ _ h => h) (onStream_polled (flushNetOut_polled env rt) h)
  cases r with
  | pending => exact fun _ => hr
  | err e => exact fun he => by cases he
  | ok u =>
    simp only [wp_bind, wp_get]
    cases h'.state with
    | none => trivial
    | some st => exact fun he => by cases he

theorem handshakePass_accounted (func : String) (h : Handshake) :
    wp (handshakePass env rt func) (passes (h.Polled env rt false) (Handed.Accounted env rt h)) (fun _ _ => True) h := by
  simp only [handshakePass, wp_bind, wp_get]
  split
  · exact handOver_accounted rt h
  · simp only [wp_bind]
    refine wp_mono (fun r m hm => ?_) (fun _ _ h => h) (onStream_polled (sslHandshake_moves rt) h)
    split
    · simp only [wp_bind, wp_modify]
      -- the future notes that the handshake is done and holds the same stream
      have hdone : h.Polled env rt false { m with handshakeDone := true } := hm
      refine wp_mono (fun o h' ho => ?_) (fun _ _ h => h) (handOver_accounted rt _)
      cases o with
      | none => exact hdone.after ho
      | some r => exact fun he => hdone.after (ho he)
    · split
      · exact fun he => by cases he
      · simp only [wp_bind]
        refine wp_mono (fun r' m' hm' => ?_) (fun _ _ h => h) (onStream_polled (flushNetOut_polled env rt) m)
        have hflushed := hm.after hm'
        cases r' with
        | pending => exact fun _ => hflushed
        | err e => exact fun he => by cases he
        | ok u =>
          simp only
          split
          · simp only [wp_bind]
            refine wp_mono (fun r'' h' hf => ?_) (fun _ _ h => h) (onStream_polled (fillNetIn_moves env rt) m')
            have hfilled := hflushed.after hf
            cases r'' with
            | pending => exact fun _ => hfilled
            | err e => exact fun he => by cases he
            | ok u' => exact hfilled
          · exact hflushed

theorem handshakePoll_accounted (func : String) (n : Nat) (h : Handshake) :
    wp (handshakePoll env rt func n) (Handed.Accounted env rt h) (fun _ _ => True) h := by
  -- the invariant: whatever the future goes on to do adds up with what it has done
  refine wp_loop (I := fun m => ∀ b h', m.Polled env rt b h' → h.Polled env rt b h') (E := fun _ _ => True)
    (fun m hm => ?_) (fun _ _ => trivial) n h (fun _ _ h => h)
  refine wp_mono (fun o h' ho => ?_) (fun _ _ h => h) (handshakePass_accounted func m)
  cases o with
  | none => exact fun b h'' hh => hm b h'' (ho.after hh)
  | some r => exact fun he => hm true h' (ho he)

theorem handshakePoll_stalled {func : String} {n : Nat} {h h' : Handshake}
    (hrun : (handshakePoll env rt func n).run h = .ok .pending h') :
    ∃ st st', h.state = some st ∧ h'.state = some st' ∧ Stalled env st st' := by
  obtain ⟨st, st', hs, hs', hp⟩ := wp_ok (handshakePoll_accounted func n h) hrun rfl
  exact ⟨st, st', hs, hs', hp.stalled⟩

/-- **No poll returns `Pending` of its own accord**: in any state of a stream or of a handshake, whatever transport and
wolfSSL answer, a call that returns `Pending` polled the transport in its course and was told `Pending`.  The transport is
polled with the context of the call only, so the answers `env` gives are those to that context. -/
theorem pending_polled_transport (env : Env) (rt : Runtime) (n : Nat) :
    (∀ (c : Call) (s s' : TlsStream) (r : Returned), (c.poll env rt n).run s = .ok r s' → r.isPending = true →
        Stalled env s s') ∧
      (∀ h h' : Handshake, (Connect.poll env rt n).run h = .ok .pending h' →
        ∃ st st', h.state = some st ∧ h'.state = some st' ∧ Stalled env st st') ∧
      (∀ h h' : Handshake, (Accept.poll env rt n).run h = .ok .pending h' →
        ∃ st st', h.state = some st ∧ h'.state = some st' ∧ Stalled env st st') := by
  refine ⟨fun c s s' r hrun hr => ?_, fun h h' hrun => handshakePoll_stalled hrun,
    fun h h' hrun => handshakePoll_stalled hrun⟩
  have hp := wp_ok (poll_moves env rt n c s) hrun
  rw [hr] at hp
  exact hp.stalled

/-- A transport that keeps its task waiting, a handshake being under way. -/
def waitingTransport : Env := { slowTransport with sslHandshake := fun _ => ⟨[.send [22, 1]], ⟨-1, wantRead⟩⟩ }

theorem pending_polled_transport_waiting :
    (∃ s', (Call.poll waitingTransport .tokio 2 (.read 8)).run newStream = .ok (.read .pending) s' ∧
        Stalled waitingTransport newStream s') ∧
      (∃ h', (Connect.poll waitingTransport .tokio 2).run ⟨some newStream, false⟩ = .ok .pending h' ∧
        ∃ st st', some newStream = some st ∧ h'.state = some st' ∧ Stalled waitingTransport st st') ∧
      ∃ h', (Accept.poll waitingTransport .tokio 2).run ⟨some newStream, false⟩ = .ok .pending h' ∧
        ∃ st st', some newStream = some st ∧ h'.state = some st' ∧ Stalled waitingTransport st st' := by
  have h := pending_polled_transport waitingTransport .tokio 2
  exact ⟨⟨_, rfl, h.1 (.read 8) newStream _ _ rfl rfl⟩, ⟨_, rfl, h.2.1 ⟨some newStream, false⟩ _ rfl⟩,
    _, rfl, h.2.2 ⟨some newStream, false⟩ _ rfl⟩

end Tls
end Wolf
