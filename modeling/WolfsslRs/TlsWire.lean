import WolfsslRs.TlsMoves
/-!
# TlsWire — what a stream puts on the wire

`netOut` is a queue: wolfSSL's send callback puts blocks at its end and the transport takes bytes from its front, whichever
poll happens to flush it and whether or not it looks at the outcome.  The transport is shut down only when the queue is
empty, and `wolfSSL_shutdown` is called once, by a poll or by `Drop`.
-/
namespace Wolf
namespace Tls

open Program

/-! ## The bytes sent and accepted in a history -/

def Callback.sent : Callback → Bytes
  | .send buf => buf
  | .recv _ => []

def Event.callbacks : Event → List Callback
  | .sslRead cb _ | .sslWrite _ cb _ | .sslShutdown cb _ | .sslHandshake cb _ => cb
  | _ => []

/-- **The blocks wolfSSL passed to the send callback**, in order. -/
def sent (ev : List Event) : Bytes := ev.flatMap fun e => e.callbacks.flatMap Callback.sent

/-- The bytes a transport took out of what it was offered; one that reports more than that has taken none, see
`Event.overReports`. -/
def Event.accepted : Event → Bytes
  | .ioWrite offered (.ok n) => if n ≤ offered.length then offered.take n else []
  | _ => []

/-- **The bytes the transport has accepted**, in order. -/
def accepted (ev : List Event) : Bytes := ev.flatMap Event.accepted

/-- A transport that says it has written more than it was offered. -/
def Event.overReports : Event → Bool
  | .ioWrite offered (.ok n) => decide (offered.length < n)
  | _ => false

/-- `netOut` after an event. -/
def Event.netOut (out : Bytes) : Event → Bytes
  | .ioWrite offered (.ok n) => if n ≤ offered.length then out.drop n else out
  | e => out ++ e.callbacks.flatMap Callback.sent

/-- **What a history leaves in `netOut`.** -/
def netOutAfter (out : Bytes) (ev : List Event) : Bytes := ev.foldl Event.netOut out

def Event.isShutdown : Event → Bool
  | .sslShutdown _ _ => true
  | _ => false

/-- **How often `wolfSSL_shutdown` was called.** -/
def shutdowns (ev : List Event) : Nat := ev.countP Event.isShutdown

theorem netOut_callbacks : ∀ (cb : List Callback) (b : NetBuffers),
    (cb.foldl Callback.apply b).netOut = b.netOut ++ cb.flatMap Callback.sent
  | [], b => (List.append_nil _).symm
  | c :: cb, b => by
    have hc : (c.apply b).netOut = b.netOut ++ c.sent := by
      cases c with
      | send buf => rfl
      | recv sz =>
        simp only [Callback.apply, NetBuffers.recv, Callback.sent, List.append_nil]
        split <;> rfl
    rw [List.foldl_cons, netOut_callbacks cb, hc, List.append_assoc, List.flatMap_cons]

/-! ## Move by move -/

section Moves

variable {env : Env} {rt : Runtime} {s s' : TlsStream} {ev : List Event}

theorem Move.netOut {e : Option Event} (h : Move env rt s e s') :
    s'.net.netOut = e.toList.foldl Event.netOut s.net.netOut := by
  cases h with
  | ioRead hr hfits => exact (List.append_nil _).symm
  | ioShutdown hr hempty hsent => exact (List.append_nil _).symm
  | hold buf => rfl
  | sslRead ha => exact netOut_callbacks _ _
  | sslWrite ha => exact netOut_callbacks _ _
  | sslHandshake ha => exact netOut_callbacks _ _
  | sslShutdown ha hfirst => exact netOut_callbacks _ _
  | @ioWrite r hr hfits =>
    cases r with
    | ok n => exact (if_pos hfits).symm
    | pending => exact (List.append_nil _).symm
    | err e => exact (List.append_nil _).symm

/-- **A move takes from the front of `netOut` what the transport accepts and puts at its end what wolfSSL sends.** -/
theorem Move.queue {e : Option Event} (h : Move env rt s e s') :
    e.toList.flatMap Event.accepted ++ s'.net.netOut =
      s.net.netOut ++ e.toList.flatMap fun e => e.callbacks.flatMap Callback.sent := by
  rw [h.netOut]
  cases h with
  | hold buf => exact (List.append_nil _).symm
  | @ioWrite r hr hfits =>
    cases r with
    | ok n =>
      simp only [Option.toList_some, List.flatMap_singleton, List.foldl_cons, List.foldl_nil, Event.accepted,
        Event.netOut, Event.callbacks, List.flatMap_nil, List.append_nil]
      have hn : n ≤ s.net.netOut.length := hfits
      rw [if_pos hn, if_pos hn, List.take_append_drop]
    | pending => simp [Event.accepted, Event.netOut]
    | err e => simp [Event.accepted, Event.netOut]
  | _ => simp [Event.accepted, Event.netOut]

/-- **`shutdownSent` says whether `wolfSSL_shutdown` has been called.** -/
theorem Move.shutdowns {e : Option Event} (h : Move env rt s e s') :
    Tls.shutdowns e.toList + s.shutdownSent.toNat = s'.shutdownSent.toNat := by
  cases h with
  | sslShutdown ha hfirst => rw [hfirst]; rfl
  | _ => exact Nat.zero_add _

theorem Move.not_overReports {e : Event} (h : Move env rt s (some e) s') : e.overReports = false := by
  cases h with
  | @ioWrite r hr hfits =>
    cases r with
    | ok n => exact decide_eq_false (Nat.not_lt.2 hfits)
    | _ => rfl
  | _ => rfl

/-! ## Run by run -/

theorem Moves.netOut (h : Moves env rt s ev s') : s'.net.netOut = netOutAfter s.net.netOut ev := by
  refine h.rel (R := fun u m => m.net.netOut = netOutAfter s.net.netOut u) rfl ?_
  intro u m e m' hu hm
  rw [hm.netOut, hu, netOutAfter, netOutAfter, List.foldl_append]

theorem Moves.queue (h : Moves env rt s ev s') :
    accepted ev ++ s'.net.netOut = s.net.netOut ++ sent ev :=
  Trace.queue (fun s : TlsStream => s.net.netOut) (fun _ _ _ hm => hm.queue) h

theorem Moves.shutdowns (h : Moves env rt s ev s') :
    Tls.shutdowns ev + s.shutdownSent.toNat = s'.shutdownSent.toNat := by
  refine h.rel (R := fun u m => Tls.shutdowns u + s.shutdownSent.toNat = m.shutdownSent.toNat) (Nat.zero_add _) ?_
  intro u m e m' hu hm
  rw [← hm.shutdowns, ← hu, Tls.shutdowns, Tls.shutdowns, Tls.shutdowns, List.countP_append]
  omega

theorem Moves.not_overReports (h : Moves env rt s ev s') : ev.any Event.overReports = false := by
  refine h.rel (R := fun u _ => u.any Event.overReports = false) rfl ?_
  intro u m e m' hu hm
  cases e with
  | none => rwa [Option.toList_none, List.append_nil]
  | some e => rw [Option.toList_some, List.any_append, hu, List.any_cons, hm.not_overReports]; rfl

theorem Fault.log {e : Event} (h : Fault env rt s e s') : s'.log = s.log ++ [e] := by cases h <;> rfl

theorem Fault.quiet {e : Event} (h : Fault env rt s e s') :
    e.accepted = [] ∧ e.callbacks = [] ∧ e.isShutdown = false ∧ s'.net.netOut = s.net.netOut ∧
      s'.shutdownSent = s.shutdownSent := by
  cases h with
  | ioRead hr hover => exact ⟨rfl, rfl, rfl, rfl, rfl⟩
  | ioWrite hr hover => exact ⟨if_neg (Nat.not_le.2 hover), rfl, rfl, rfl, rfl⟩

theorem Course.log {stop : Option Stop} (h : Course env rt stop s ev s') : s'.log = s.log ++ ev := by
  rcases h with h | ⟨-, pre, m, e, rfl, hpre, hfault⟩
  · exact h.log
  · rw [hfault.log, hpre.log, List.append_assoc]

theorem Course.queue {stop : Option Stop} (h : Course env rt stop s ev s') :
    accepted ev ++ s'.net.netOut = s.net.netOut ++ sent ev := by
  rcases h with h | ⟨-, pre, m, e, rfl, hpre, hfault⟩
  · exact h.queue
  · obtain ⟨hacc, hcb, -, hout, -⟩ := hfault.quiet
    rw [hout]
    simp only [accepted, sent, List.flatMap_append, List.flatMap_singleton, hacc, hcb, List.flatMap_nil, List.append_nil]
    exact hpre.queue

theorem Course.shutdowns {stop : Option Stop} (h : Course env rt stop s ev s') :
    Tls.shutdowns ev + s.shutdownSent.toNat = s'.shutdownSent.toNat := by
  rcases h with h | ⟨-, pre, m, e, rfl, hpre, hfault⟩
  · exact h.shutdowns
  · obtain ⟨-, -, hshut, -, hkeep⟩ := hfault.quiet
    rw [hkeep, ← hpre.shutdowns, Tls.shutdowns, Tls.shutdowns, List.countP_append, List.countP_singleton, hshut]
    rfl

/-- A transport that over-reports breaks the course off: only the last event can do so, and only where it panicked. -/
theorem Course.overReports {stop : Option Stop} (h : Course env rt stop s ev s') :
    ev.any Event.overReports = false ∨ stop = some .panicked ∧ ev.dropLast.any Event.overReports = false := by
  rcases h with h | ⟨hstop, pre, m, e, rfl, hpre, -⟩
  · exact .inl h.not_overReports
  · exact .inr ⟨hstop, by rw [List.dropLast_concat]; exact hpre.not_overReports⟩

/-- **The transport is shut down only after a close_notify and with nothing in `netOut`.** -/
theorem Course.ioShutdown {stop : Option Stop} {pre post : List Event} {r : Poll Unit}
    (h : Course env rt stop s (pre ++ .ioShutdown r :: post) s') :
    ∃ m, Moves env rt s pre m ∧ m.net.netOut = [] ∧ m.shutdownSent = true := by
  have hmoves : ∀ post s', Moves env rt s (pre ++ .ioShutdown r :: post) s' →
      ∃ m, Moves env rt s pre m ∧ m.net.netOut = [] ∧ m.shutdownSent = true := by
    intro post s' h
    obtain ⟨m, m', hpre, hmove, -⟩ := h.cut
    cases hmove with
    | ioShutdown hr hempty hsent => exact ⟨m, hpre, hempty, hsent⟩
  rcases h with h | ⟨-, pre', m, e, heq, hpre', hfault⟩
  · exact hmoves post s' h
  · -- the fault is no shutdown, so the shutdown is among the moves before it
    rcases List.eq_nil_or_concat post with rfl | ⟨post', x, rfl⟩
    · obtain ⟨-, he⟩ := List.append_inj' heq rfl
      cases he
      cases hfault
    · have heq' : (pre ++ .ioShutdown r :: post') ++ [x] = pre' ++ [e] := by simpa using heq
      obtain ⟨rfl, -⟩ := List.append_inj' heq' rfl
      exact hmoves post' m hpre'

end Moves

/-! ## Whole runs -/

/-- **Each ciphertext byte is written once and in order**: over any run of any stream of either runtime, whatever its
transport and wolfSSL answer and whether or not a flush is looked at, what the transport accepted followed by `netOut` is
what `netOut` held at the start followed by the blocks wolfSSL sent since.  A transport that says it has written more than
it was offered is the last to be asked: the stream panics. -/
theorem accepted_append_netOut (env : Env) (rt : Runtime) (n : Nat) (calls : List Call) (s : TlsStream) :
    ∃ ev, (run env rt n calls s).stream.log = s.log ++ ev ∧
      accepted ev ++ (run env rt n calls s).stream.net.netOut = s.net.netOut ++ sent ev ∧
      (ev.any Event.overReports = false ∨
        (run env rt n calls s).stop = some .panicked ∧ ev.dropLast.any Event.overReports = false) := by
  obtain ⟨ev, h⟩ := run_course env rt n calls s
  exact ⟨ev, h.log, h.queue, h.overReports⟩

/-- A transport that takes at most two bytes at a time and is not ready every third time, under a wolfSSL that frames. -/
def slowTransport : Env where
  ioRead _ := .pending
  ioWrite log buf := if log.length % 3 = 2 then .pending else .ok (min 2 buf.length)
  ioShutdown _ := .ok ()
  sslRead _ := ⟨[.send [21, 22]], .failed wantRead⟩
  sslWrite _ buf := ⟨[.send [23], .send buf], ⟨buf.length, 0⟩⟩
  sslShutdown _ := ⟨[.send [21, 0]], ⟨0, 0⟩⟩
  sslHandshake _ := ⟨[], ⟨1, 0⟩⟩
  errorString _ := ""

example :
    let t := run slowTransport .tokio 4 [.write [1, 2, 3], .read 8, .write [4], .shutdown] newStream
    (accepted t.stream.log, t.stream.net.netOut, sent t.stream.log) =
      ([23, 1, 2, 3], [23, 4, 21, 0], [23, 1, 2, 3, 23, 4, 21, 0]) := by decide

/-- `Drop`: a stream that has not sent its close_notify calls `wolfSSL_shutdown`, which nothing flushes any more. -/
def TlsStream.drop (env : Env) (s : TlsStream) : TlsStream :=
  if s.shutdownSent then s
  else
    let a := env.sslShutdown s.log
    s.ran a.callbacks (.sslShutdown a.callbacks a.ret)

theorem TlsStream.drop_log (env : Env) (s : TlsStream) :
    ∃ ev, (s.drop env).log = s.log ++ ev ∧ shutdowns ev + s.shutdownSent.toNat = 1 ∧
      ∀ r, Event.ioShutdown r ∉ ev := by
  cases hs : s.shutdownSent with
  | true => exact ⟨[], by simp [TlsStream.drop, hs], rfl, fun r h => by cases h⟩
  | false =>
    let a := env.sslShutdown s.log
    refine ⟨[.sslShutdown a.callbacks a.ret], by simp [TlsStream.drop, hs, TlsStream.ran, TlsStream.record, a], rfl, ?_⟩
    intro r h
    cases List.mem_singleton.1 h

/-- **One close_notify, and the transport is shut down after it**: over the whole life of a stream, ended by `Drop`,
`wolfSSL_shutdown` is called at most once, and whenever the transport is told to shut down the close_notify has been
sent, `netOut` is empty and everything wolfSSL sent before has been accepted. -/
theorem shutdown_once_then_close (env : Env) (rt : Runtime) (n : Nat) (calls : List Call) (s : TlsStream) :
    (∃ ev, ((run env rt n calls s).stream.drop env).log = s.log ++ ev ∧ shutdowns ev + s.shutdownSent.toNat ≤ 1) ∧
      ∀ pre r post, ((run env rt n calls s).stream.drop env).log = s.log ++ (pre ++ .ioShutdown r :: post) →
        shutdowns pre + s.shutdownSent.toNat = 1 ∧ netOutAfter s.net.netOut pre = [] ∧
          accepted pre = s.net.netOut ++ sent pre := by
  obtain ⟨ev, h⟩ := run_course env rt n calls s
  obtain ⟨last, hlast, hcount, hno⟩ := (run env rt n calls s).stream.drop_log env
  have hlog : ((run env rt n calls s).stream.drop env).log = s.log ++ (ev ++ last) := by
    rw [hlast, h.log, List.append_assoc]
  refine ⟨⟨ev ++ last, hlog, ?_⟩, fun pre r post hpre => ?_⟩
  · have hev := h.shutdowns
    rw [shutdowns, List.countP_append, ← shutdowns, ← shutdowns]
    omega
  · have heq : pre ++ .ioShutdown r :: post = ev ++ last := List.append_cancel_left (hpre.symm.trans hlog)
    -- `Drop` does not shut the transport down, so this happened in the run
    obtain ⟨post', rfl⟩ : ∃ post', ev = pre ++ .ioShutdown r :: post' := by
      rcases List.append_eq_append_iff.1 heq with ⟨w, hw, hl⟩ | ⟨w, hw, hl⟩
      · cases w with
        | nil => exact absurd (by rw [← List.nil_append last, ← hl]; exact List.mem_cons_self) (hno r)
        | cons x w =>
          obtain ⟨rfl, -⟩ := List.cons.inj hl
          exact ⟨w, hw⟩
      · exact absurd (by rw [hl]; exact List.mem_append_right _ List.mem_cons_self) (hno r)
    obtain ⟨m, hm, hempty, hsent⟩ := h.ioShutdown
    have hq := hm.queue
    rw [hempty, List.append_nil] at hq
    exact ⟨hm.shutdowns.trans (by rw [hsent]; rfl), hm.netOut.symm.trans hempty, hq⟩

theorem shutdown_once_then_close_slow :
    let log := ((run slowTransport .futuresIo 4 [.write [1], .shutdown, .shutdown] newStream).stream.drop
      slowTransport).log
    log = newStream.log ++ (log.take 4 ++ .ioShutdown (.ok ()) :: log.drop 5) ∧
      shutdowns (log.take 4) + newStream.shutdownSent.toNat = 1 ∧
        netOutAfter newStream.net.netOut (log.take 4) = [] ∧
          accepted (log.take 4) = newStream.net.netOut ++ sent (log.take 4) :=
  ⟨by decide, (shutdown_once_then_close slowTransport .futuresIo 4 [.write [1], .shutdown, .shutdown] newStream).2 _
    (.ok ()) [.ioShutdown (.ok ())] (by decide)⟩

end Tls
end Wolf
