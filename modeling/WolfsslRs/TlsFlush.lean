import WolfsslRs.TlsWire
/-!
# TlsFlush — what a stream leaves behind it

A flush of the stream hands the transport every byte of `netOut`, but no poll of the stream calls the transport's own
`poll_flush`: what a transport that buffers has been handed it goes on holding.  And `poll_read` flushes only after a
`wolfSSL_read` that returned a record or asked to write; what wolfSSL sends in another read stays in `netOut` when the poll
returns.
-/
namespace Wolf
namespace Tls

open Program

/-! ## A transport that buffers -/

/-- What a transport that may buffer is asked to do with bytes: it takes some, or its own `poll_flush` is called. -/
inductive Served where
  | took (bytes : Bytes)
  | flushed (r : Poll Unit)
  deriving DecidableEq, Repr

def Served.unflushed (held : Bytes) : Served → Bytes
  | .took bytes => held ++ bytes
  | .flushed (.ok ()) => []
  | .flushed _ => held

/-- **The bytes handed to a transport since its `poll_flush` last completed.** -/
def unflushed (hist : List Served) : Bytes := hist.foldl Served.unflushed []

/-- What an event of a stream asks of the transport's buffer: a write hands it the bytes it accepts, and no event is a call
of its `poll_flush`. -/
def Event.served (e : Event) : List Served :=
  if e.accepted = [] then [] else [.took e.accepted]

def served (log : List Event) : List Served := log.flatMap Event.served

/-- **A stream never has its transport flushed**: it leaves there all it has handed over. -/
theorem unflushed_served : ∀ log : List Event, unflushed (served log) = accepted log := by
  have hstep : ∀ (log : List Event) (held : Bytes),
      (served log).foldl Served.unflushed held = held ++ accepted log := by
    intro log
    induction log with
    | nil => exact fun held => (List.append_nil held).symm
    | cons e log ih =>
      intro held
      have he : e.served.foldl Served.unflushed held = held ++ e.accepted := by
        by_cases hnone : e.accepted = []
        · rw [Event.served, if_pos hnone, hnone, List.append_nil]
          rfl
        · rw [Event.served, if_neg hnone]
          rfl
      rw [served, List.flatMap_cons, List.foldl_append, he, ← served, ih, accepted, accepted, List.flatMap_cons,
        List.append_assoc]
  exact fun log => hstep log []

theorem pollFlush_ok {env : Env} {s s' : TlsStream} (h : (pollFlush env).run s = .ok (.ok ()) s') :
    s'.net.netOut = [] ∧ ∃ ws, s'.log = s.log ++ ws ∧ accepted ws = s.net.netOut := by
  obtain ⟨ws, hws, hempty, -⟩ := wp_ok (flushNetOut_offers env .tokio s) h
  have hmoves := Offers.moves hws
  have hnone : sent ws = [] := by
    refine hws.rel (R := fun u _ => sent u = []) rfl ?_
    rintro u m e m' hu ⟨-, offered, r, rfl⟩
    rw [sent, List.flatMap_append, ← sent, hu]
    rfl
  have hqueue := hmoves.queue
  rw [hempty, hnone, List.append_nil, List.append_nil] at hqueue
  exact ⟨hempty, ws, hmoves.log, hqueue⟩

/-- **A completed `poll_flush` has the transport flushed only if there is nothing to flush.**  After any run of a stream of
either runtime, a `poll_flush` that returns `Ready(Ok)` leaves every ciphertext byte accepted; the transport's own
`poll_flush` has completed since the last of them exactly if no byte had been handed to the transport and `netOut` was
empty. -/
theorem flush_ready_iff_nothing_handed (env : Env) (rt : Runtime) (n : Nat) (calls : List Call) (s₀ s' : TlsStream)
    (hflush : (pollFlush env).run (run env rt n calls s₀).stream = .ok (.ok ()) s') :
    (∃ ev, s'.log = s₀.log ++ ev ∧ accepted ev = s₀.net.netOut ++ sent ev ∧ unflushed (served s'.log) = []) ↔
      accepted (run env rt n calls s₀).stream.log = [] ∧ (run env rt n calls s₀).stream.net.netOut = [] := by
  obtain ⟨ev, hcourse⟩ := run_course env rt n calls s₀
  obtain ⟨hempty, ws, hlog, hws⟩ := pollFlush_ok hflush
  have hall : accepted s'.log =
      accepted (run env rt n calls s₀).stream.log ++ (run env rt n calls s₀).stream.net.netOut := by
    rw [hlog, accepted, List.flatMap_append, ← accepted, ← accepted, hws]
  rw [unflushed_served, hall, List.append_eq_nil_iff]
  constructor
  · rintro ⟨_, _, _, h⟩
    exact h
  intro h
  have hqueue := hcourse.queue
  rw [h.2, List.append_nil] at hqueue
  -- there is nothing in `netOut`, so the flush was no event at all
  have hnil : ws = [] := by
    have hrun : (pollFlush env).run (run env rt n calls s₀).stream = .ok (.ok ()) (run env rt n calls s₀).stream := by
      rw [pollFlush, flushNetOut, EStateM.run_bind, EStateM.run_get]
      show (flushLoop env (run env rt n calls s₀).stream.net.netOut.length).run _ = _
      rw [h.2]
      rfl
    rw [hrun] at hflush
    cases hflush
    exact List.append_cancel_left (hlog.symm.trans (List.append_nil _).symm)
  rw [hlog, hnil, List.append_nil]
  exact ⟨ev, hcourse.log, hqueue, h⟩

/-- A stream that has read a record and written none has nothing to flush; one that has written one has, and the flush
completes all the same. -/
theorem flush_ready_iff_nothing_handed_read :
    (∃ s', (pollFlush twoRecords).run (run twoRecords .tokio 2 [.read 16, .read 4] newStream).stream = .ok (.ok ()) s' ∧
        ∃ ev, s'.log = newStream.log ++ ev ∧ accepted ev = newStream.net.netOut ++ sent ev ∧
          unflushed (served s'.log) = []) ∧
      ∃ s', (pollFlush slowTransport).run (run slowTransport .tokio 4 [.write [7], .read 8] newStream).stream =
          .ok (.ok ()) s' ∧
        ¬ ∃ ev, s'.log = newStream.log ++ ev ∧ accepted ev = newStream.net.netOut ++ sent ev ∧
          unflushed (served s'.log) = [] :=
  ⟨⟨_, rfl, (flush_ready_iff_nothing_handed twoRecords .tokio 2 [.read 16, .read 4] newStream _ rfl).2 ⟨rfl, rfl⟩⟩,
    _, rfl, fun h => absurd
      ((flush_ready_iff_nothing_handed slowTransport .tokio 4 [.write [7], .read 8] newStream _ rfl).1 h).1 (by decide)⟩

/-- **A flush that completes leaves a written record in the transport's buffer**, under either runtime. -/
theorem flush_ready_leaves_record :
    (∃ s', (pollFlush slowTransport).run (run slowTransport .tokio 4 [.write [7]] newStream).stream = .ok (.ok ()) s' ∧
        unflushed (served s'.log) = [23, 7]) ∧
      ∃ s', (pollFlush slowTransport).run (run slowTransport .futuresIo 4 [.write [7]] newStream).stream =
          .ok (.ok ()) s' ∧ unflushed (served s'.log) = [23, 7] :=
  ⟨⟨_, rfl, by decide⟩, _, rfl, by decide⟩

/-! ## What a read leaves in `netOut` -/

/-- The answers of `wolfSSL_read` after which `poll_read` flushes: a record, or a wish to write. -/
def Event.flushes : Event → Bool
  | .sslRead _ (.block _) => true
  | .sslRead _ (.failed err) => decide (err = wantWrite)
  | _ => false

def Event.sendsNothing (e : Event) : Bool := decide (e.callbacks.flatMap Callback.sent = [])

/-- Whether all that wolfSSL sent is on its way after an event, `c` saying so of the events before: what an answer is
followed by a flush for goes out unless a write of the flush is refused; what another answer sent stays. -/
def Event.clears (c : Bool) : Event → Bool
  | .ioWrite _ r => c && decide (0 < r.count)
  | e => e.flushes || c && e.sendsNothing

/-- **The answers of transport and wolfSSL leave nothing behind**: every read after the last record or wish to write (every
read, and `out` with them, if there was none) sent nothing, and no write after it was refused. -/
def cleared (out : Bytes) (ev : List Event) : Bool := ev.foldl Event.clears (decide (out = []))

def Event.writeStalls : Event → Bool
  | .ioWrite _ .pending => true
  | _ => false

/-- From `s` on, `netOut` is empty exactly if the answers so far leave nothing behind, or a write was not ready. -/
def Tracks (s m : TlsStream) : Prop :=
  ∃ ev, m.log = s.log ++ ev ∧
    (ev.any Event.writeStalls = true ∨ (m.net.netOut = [] ↔ cleared s.net.netOut ev = true))

theorem Tracks.refl (s : TlsStream) : Tracks s s :=
  ⟨[], (List.append_nil _).symm, .inr (by rw [cleared, List.foldl_nil, decide_eq_true_iff])⟩

theorem Tracks.trans {s m s' : TlsStream} (h : Tracks s m) (h' : Tracks m s') : Tracks s s' := by
  obtain ⟨u, hlog, hu⟩ := h
  obtain ⟨v, hlog', hv⟩ := h'
  refine ⟨u ++ v, by rw [hlog', hlog, List.append_assoc], ?_⟩
  rw [List.any_append, Bool.or_eq_true]
  rcases hu with hu | hu
  · exact .inl (.inl hu)
  · rcases hv with hv | hv
    · exact .inl (.inr hv)
    · have hmid : cleared s.net.netOut u = decide (m.net.netOut = []) := by
        rw [Bool.eq_iff_iff, ← hu, decide_eq_true_iff]
      refine .inr ?_
      unfold cleared at hmid
      rw [hv, cleared, cleared, List.foldl_append, hmid]

variable {env : Env} {rt : Runtime}

/-- One event that is neither a write nor followed by a flush. -/
theorem Tracks.event {s s' : TlsStream} {e : Event} (hlog : s'.log = s.log ++ [e])
    (hkind : e.clears (decide (s.net.netOut = [])) = (decide (s.net.netOut = []) && e.sendsNothing))
    (hout : s'.net.netOut = s.net.netOut ++ e.callbacks.flatMap Callback.sent) : Tracks s s' := by
  refine ⟨[e], hlog, .inr ?_⟩
  rw [cleared, List.foldl_cons, List.foldl_nil, hkind, Event.sendsNothing, Bool.and_eq_true, decide_eq_true_iff,
    decide_eq_true_iff, hout, List.append_eq_nil_iff]

theorem Tracks.quiet {s s' : TlsStream} (hlog : s'.log = s.log) (hout : s'.net.netOut = s.net.netOut) : Tracks s s' := by
  refine ⟨[], by rw [hlog, List.append_nil], .inr ?_⟩
  rw [hout, cleared, List.foldl_nil, decide_eq_true_iff]

/-- Over writes alone: all is on its way if it was to be and none was refused. -/
theorem clears_writes : ∀ (ws : List Event) (c : Bool), (∀ e ∈ ws, ∃ offered r, e = .ioWrite offered r) →
    (ws.foldl Event.clears c = true ↔ c = true ∧ ∀ offered r, .ioWrite offered r ∈ ws → 0 < r.count)
  | [], c, _ => by simp
  | e :: ws, c, h => by
    obtain ⟨offered, r, rfl⟩ := h e List.mem_cons_self
    rw [List.foldl_cons, clears_writes ws _ fun e' he => h e' (List.mem_cons_of_mem _ he)]
    simp only [Event.clears, Bool.and_eq_true, decide_eq_true_iff]
    constructor
    · rintro ⟨⟨hc, hr⟩, hws⟩
      refine ⟨hc, fun offered' r' hmem => ?_⟩
      rcases List.mem_cons.1 hmem with heq | hmem
      · cases heq
        exact hr
      · exact hws offered' r' hmem
    · rintro ⟨hc, hall⟩
      exact ⟨⟨hc, hall offered r List.mem_cons_self⟩, fun o' r' hmem => hall o' r' (List.mem_cons_of_mem _ hmem)⟩

/-- **An answer that is followed by a flush**, and the flush, whatever comes of it. -/
theorem Tracks.flushed {s m s' : TlsStream} {e : Event} {ws : List Event} {r : Poll Unit} (hlog : m.log = s.log ++ [e])
    (hkind : ∀ c, e.clears c = true) (hws : Trace (Offer env rt) m ws s') (hend : r.Flushed ws s'.net.netOut) :
    Tracks s s' := by
  refine ⟨e :: ws, by rw [(Offers.moves hws).log, hlog, List.append_assoc, List.singleton_append], ?_⟩
  have hwrites : ∀ x ∈ ws, ∃ offered r, x = .ioWrite offered r := by
    refine hws.rel (R := fun u _ => ∀ x ∈ u, ∃ offered r, x = .ioWrite offered r) (fun _ h => by cases h) ?_
    rintro u m e m' hu ⟨-, offered, r, rfl⟩ x hx
    rcases List.mem_append.1 hx with hx | hx
    · exact hu x hx
    · exact ⟨offered, r, List.mem_singleton.1 hx⟩
  rw [cleared, List.foldl_cons, hkind, clears_writes ws true hwrites]
  cases r with
  | pending =>
    obtain ⟨offered, hmem⟩ := hend
    exact .inl (List.any_eq_true.2 ⟨_, List.mem_cons_of_mem _ hmem, rfl⟩)
  | ok u => exact .inr ⟨fun _ => ⟨rfl, hend.2⟩, fun _ => hend.1⟩
  | err x =>
    obtain ⟨hout, offered, r, hmem, hnone⟩ := hend
    refine .inr ⟨fun h => absurd h hout, fun h => ?_⟩
    have hpos := h.2 offered r hmem
    omega

/-! ## Every poll of the reader keeps the track -/

theorem wp_tracks_after {α : Type} {p : Task α} {s m : TlsStream} (h : Tracks s m)
    (hp : wp p (fun _ s' => Tracks m s') (fun _ _ => True) m) : wp p (fun _ s' => Tracks s s') (fun _ _ => True) m :=
  wp_mono (fun _ _ h' => h.trans h') (fun _ _ h => h) hp

theorem fillNetIn_tracks (env : Env) (rt : Runtime) (s : TlsStream) :
    wp (fillNetIn env rt) (fun _ s' => Tracks s s') (fun _ _ => True) s := by
  simp only [fillNetIn, wp_bind, wp_get, wp_modify]
  have hasked : ∀ r : Poll Bytes, Tracks s (s.record (.ioRead r)) := fun r =>
    .event rfl rfl (List.append_nil _).symm
  cases env.ioRead s.log with
  | pending => exact hasked _
  | err e => exact hasked _
  | ok d =>
    cases d with
    | nil => exact hasked _
    | cons b d =>
      simp only
      split
      · exact (hasked _).trans (.quiet rfl rfl)
      · trivial

theorem deliver_tracks (cap : Nat) (s : TlsStream) :
    wp (deliver cap) (fun _ s' => Tracks s s') (fun _ _ => True) s := by
  simp only [deliver, wp_bind, wp_get, wp_modify, wp_pure]
  exact .quiet rfl rfl

/-- A flush after an answer that calls for one; `m` is the state it starts in. -/
theorem flush_tracks (env : Env) {s m : TlsStream} {e : Event} (hlog : m.log = s.log ++ [e])
    (hkind : ∀ c, e.clears c = true) : wp (flushNetOut env) (fun _ s' => Tracks s s') (fun _ _ => True) m := by
  refine wp_mono (fun r s' h => ?_) (fun _ _ _ => trivial) (flushNetOut_offers env .tokio m)
  obtain ⟨ws, hws, hend⟩ := h
  exact .flushed hlog hkind hws hend

theorem Tracks.asked {s m : TlsStream} {cb : List Callback} {ret : ReadRet} (h : Tracks s m)
    (hret : (Event.sslRead cb ret).flushes = false) : Tracks s (m.ran cb (.sslRead cb ret)) :=
  h.trans (.event rfl (by rw [Event.clears, hret, Bool.false_or]; exact fun _ _ hw => by cases hw)
    (netOut_callbacks cb m.net))

theorem readRule_tracks (env : Env) (rt : Runtime) (cap : Nat) (s : TlsStream) :
    ReadRule env rt cap (Tracks s) (Tracks s) (fun _ => Tracks s) (fun _ _ => True) where
  inner := id
  out _ := trivial
  fill hm := by
    refine wp_mono (fun r s' h => ?_) (fun _ _ h => h) (wp_tracks_after hm (fillNetIn_tracks env rt _))
    cases r <;> exact h
  deliver hm _ := wp_tracks_after hm (deliver_tracks cap _)
  block hm _ := wp_mono (fun _ _ h => hm.trans h) (fun _ _ h => h) (flush_tracks env rfl fun _ => rfl)
  closed hm _ _ := hm.asked rfl
  rest hm _ _ := wp_tracks_after (hm.asked rfl) (deliver_tracks cap _)
  wantsRead hm _ := hm.asked rfl
  wantsWrite hm _ := by
    refine wp_mono (fun r s' h => ?_) (fun _ _ h => h) (flush_tracks env rfl fun _ => rfl)
    have h := hm.trans h
    cases r <;> exact h
  failed hm _ _ hwrite := hm.asked (decide_eq_false hwrite)

theorem pollRead_tracks (env : Env) (rt : Runtime) (cap n : Nat) (s : TlsStream) :
    wp (rt.pollRead env cap n) (fun _ s' => Tracks s s') (fun _ _ => True) s :=
  (readRule_tracks env rt cap s).pollRead n (.refl s) (.refl s)

/-- **What a pending read leaves in `netOut`**: in every state and under every wolfSSL and transport, a `poll_read` that
returns `Pending` with something in `netOut` and no write poll told to wait is one in which wolfSSL sent something in a
read that `poll_read` does not flush after, or left what was there before, or a write was refused. -/
theorem pending_read_clears_iff (env : Env) (rt : Runtime) (cap n : Nat) (s s' : TlsStream)
    (hrun : (rt.pollRead env cap n).run s = .ok .pending s') :
    ∃ ev, s'.log = s.log ++ ev ∧
      ((s'.net.netOut = [] ∨ ∃ offered, .ioWrite offered .pending ∈ ev) ↔
        (∃ offered, .ioWrite offered .pending ∈ ev) ∨ cleared s.net.netOut ev = true) := by
  obtain ⟨ev, hlog, h⟩ := wp_ok (pollRead_tracks env rt cap n s) hrun
  refine ⟨ev, hlog, ?_⟩
  rcases h with h | h
  · obtain ⟨e, he, hstall⟩ := List.any_eq_true.1 h
    have hmem : ∃ offered, Event.ioWrite offered .pending ∈ ev := by
      cases e with
      | ioWrite offered r =>
        cases r with
        | pending => exact ⟨offered, he⟩
        | _ => cases hstall
      | _ => cases hstall
    exact ⟨fun _ => .inl hmem, fun _ => .inr hmem⟩
  · rw [h, or_comm]

/-- A peer that asks for new keys and then waits: wolfSSL sends its own key update and reports that it wants to read. -/
def keyUpdate : Env :=
  { slowTransport with
    ioRead := fun log => if log = [] then .ok [23, 24] else .pending
    sslRead := fun _ => ⟨[.recv 2, .send [23, 24]], .failed wantRead⟩ }

/-- The same peer, where wolfSSL reports that it wants to write: `poll_read` flushes and asks the transport for more. -/
def keyUpdateWrites : Env :=
  { keyUpdate with
    ioWrite := fun _ buf => .ok buf.length
    sslRead := fun _ => ⟨[.recv 2, .send [23, 24]], .failed wantWrite⟩ }

theorem pending_read_clears_iff_keyUpdate :
    (∃ s', (Runtime.pollRead keyUpdateWrites 8 3 .tokio).run newStream = .ok .pending s' ∧
        ∃ ev, s'.log = newStream.log ++ ev ∧ (s'.net.netOut = [] ∨ ∃ offered, .ioWrite offered .pending ∈ ev)) ∧
      ∃ s', (Runtime.pollRead keyUpdate 8 3 .tokio).run newStream = .ok .pending s' ∧
        ∃ ev, s'.log = newStream.log ++ ev ∧ ¬ (s'.net.netOut = [] ∨ ∃ offered, .ioWrite offered .pending ∈ ev) := by
  constructor
  · refine ⟨_, rfl, ?_⟩
    obtain ⟨ev, hlog, hiff⟩ := pending_read_clears_iff keyUpdateWrites .tokio 8 3 newStream _ rfl
    have hev : ev = [.ioRead (.ok [23, 24]), .sslRead [.recv 2, .send [23, 24]] (.failed wantWrite),
        .ioWrite [23, 24] (.ok 2), .ioRead .pending] :=
      (List.append_right_inj _).1 hlog.symm
    exact ⟨ev, hlog, hiff.2 (.inr (by rw [hev]; decide))⟩
  · refine ⟨_, rfl, ?_⟩
    obtain ⟨ev, hlog, hiff⟩ := pending_read_clears_iff keyUpdate .tokio 8 3 newStream _ rfl
    have hev : ev = [.ioRead (.ok [23, 24]), .sslRead [.recv 2, .send [23, 24]] (.failed wantRead), .ioRead .pending] :=
      (List.append_right_inj _).1 hlog.symm
    refine ⟨ev, hlog, fun h => ?_⟩
    rcases hiff.1 h with ⟨offered, hmem⟩ | hcleared
    · rw [hev] at hmem
      simp at hmem
    · rw [hev] at hcleared
      exact absurd hcleared (by decide)

/-- **The answer to a key update is left in `netOut`** by a read that returns `Pending` and has not tried to write it. -/
theorem keyUpdate_reply_left :
    (∃ s', (Runtime.pollRead keyUpdate 8 3 .tokio).run newStream = .ok .pending s' ∧ s'.net.netOut = [23, 24] ∧
        ∀ offered r, .ioWrite offered r ∉ s'.log) ∧
      ∃ s', (Runtime.pollRead keyUpdate 8 3 .futuresIo).run newStream = .ok .pending s' ∧ s'.net.netOut = [23, 24] ∧
        ∀ offered r, .ioWrite offered r ∉ s'.log := by
  have hlog : ∀ (cb : List Callback) (ret : ReadRet) (r₁ r₂ : Poll Bytes) (offered : Bytes) (r : Poll Nat),
      Event.ioWrite offered r ∉ [.ioRead r₁, .sslRead cb ret, .ioRead r₂] := by simp
  exact ⟨⟨_, rfl, rfl, fun _ _ => hlog _ _ _ _ _ _⟩, _, rfl, rfl, fun _ _ => hlog _ _ _ _ _ _⟩

end Tls
end Wolf
