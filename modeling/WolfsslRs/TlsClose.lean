import WolfsslRs.TlsMoves
/-!
# TlsClose — reads after the peer has closed

`wolfSSL_read` returns zero once the peer's close_notify has come.  The stream keeps no note of it: the next read finds
an empty `readBuf`, and where `netIn` is empty too it asks the transport first and `wolfSSL_read` only then.  A read
after the close is clean exactly when there is plaintext left, or there is ciphertext to be had and `wolfSSL_read`
returns zero again before it returns a record.
-/
namespace Wolf
namespace Tls

open Program

def Event.isClose : Event → Bool
  | .sslRead _ .closed => true
  | _ => false

/-- `wolfSSL_read` has returned zero. -/
def sawClose (log : List Event) : Bool := log.any Event.isClose

/-- The transport has bytes to give, no more than it was asked for. -/
def Poll.supplies (rt : Runtime) : Poll Bytes → Bool
  | .ok (b :: d) => rt.accepts (b :: d).length
  | _ => false

/-- **What a clean read after the close needs** of the stream, its transport, and the answers `ev` that transport and
wolfSSL give in the course of the read: plaintext in `readBuf`; or ciphertext, in `netIn` or from the transport, and a
`wolfSSL_read` that returns zero, none having returned a record. -/
def CleanReadReady (env : Env) (rt : Runtime) (s : TlsStream) (ev : List Event) : Prop :=
  s.readBuf ≠ [] ∨
    (s.net.netIn ≠ [] ∨ (env.ioRead s.log).supplies rt = true) ∧ sawClose ev = true ∧ ev.any Event.handsOver = false

instance (env : Env) (rt : Runtime) (s : TlsStream) (ev : List Event) : Decidable (CleanReadReady env rt s ev) :=
  inferInstanceAs (Decidable (_ ∨ _))

/-! ## Up to a close -/

theorem sawClose_append (u v : List Event) : sawClose (u ++ v) = (sawClose u || sawClose v) := List.any_append

/-- The answers so far account for the state, and none of them is a close. -/
def Open (s s' : TlsStream) : Prop := ∃ ev, Accounts [] s s' ev ∧ sawClose ev = false

/-- A read that has returned: it gives an end of file exactly if the close came and there was no plaintext. -/
def Settles (r : Poll Bytes) (s s' : TlsStream) : Prop :=
  ∃ ev, Accounts r.bytes s s' ev ∧ (r = .ok [] ↔ sawClose ev = true ∧ s.readBuf ++ plaintext ev = [])

theorem Open.refl (s : TlsStream) : Open s s := ⟨[], .refl s, rfl⟩

theorem Open.trans {s m s' : TlsStream} (h : Open s m) (h' : Open m s') : Open s s' := by
  obtain ⟨u, hu, hnone⟩ := h
  obtain ⟨v, hv, hnone'⟩ := h'
  exact ⟨u ++ v, hu.trans hv, by rw [sawClose_append, hnone, hnone', Bool.or_false]⟩

theorem Open.settles {r : Poll Bytes} {s m s' : TlsStream} (h : Open s m) (h' : Settles r m s') : Settles r s s' := by
  obtain ⟨u, hu, hnone⟩ := h
  obtain ⟨v, hv, hend⟩ := h'
  have hbuf : m.readBuf = s.readBuf ++ plaintext u := hu.buf
  refine ⟨u ++ v, hu.trans hv, ?_⟩
  rw [hend, sawClose_append, hnone, Bool.false_or, hbuf, plaintext_append, List.append_assoc]

/-- A read that is refused has met no close. -/
theorem Open.refused {r : Poll Bytes} {s s' : TlsStream} (h : Open s s') (hr : r.refused = true) : Settles r s s' := by
  obtain ⟨ev, hacc, hnone⟩ := h
  have hbytes : r.bytes = [] := by cases r <;> first | rfl | cases hr
  refine ⟨ev, by rwa [hbytes], fun hok => ?_, fun hclose => ?_⟩
  · rw [hok] at hr
    cases hr
  · rw [hnone] at hclose
    cases hclose.1

theorem settles_take {cap : Nat} (hcap : 0 < cap) {s m : TlsStream} (h : s.readBuf ≠ [])
    (hacc : Accounts (s.readBuf.take cap) s m []) : Settles (.ok (s.readBuf.take cap)) s m := by
  refine ⟨[], hacc, fun hok => ?_, fun hclose => ?_⟩
  · have hnil : s.readBuf.take cap = [] := Poll.ok.inj hok
    rcases List.take_eq_nil_iff.1 hnil with hzero | hnil
    · omega
    · exact absurd hnil h
  · exact absurd (List.append_eq_nil_iff.1 hclose.2).1 h

theorem Open.silent {s s' : TlsStream} {e : Event} (hlog : s'.log = s.log ++ [e]) (hbuf : s'.readBuf = s.readBuf)
    (hp : e.plaintext = []) (he : e.isClose = false) : Open s s' :=
  ⟨[e], .silent hlog hbuf hp, by rw [sawClose, List.any_cons, he]; rfl⟩

theorem Open.failed {s m : TlsStream} {cb : List Callback} {err : Int} (h : Open s m) :
    Open s (m.ran cb (.sslRead cb (.failed err))) := h.trans (.silent rfl rfl rfl rfl)

/-- A refill or a flush that is not done ends the read, with no close so far. -/
theorem Open.done {s m : TlsStream} (h : Open s m) (r : Poll Unit) :
    Poll.Done (Open s) (fun r => Settles r s) r m := by
  cases r with
  | ok u => exact h
  | pending => exact h.refused rfl
  | err e => exact h.refused rfl

section Reads

variable {env : Env} {rt : Runtime} {cap n : Nat}

theorem wp_fillNetIn_open (s : TlsStream) :
    wp (fillNetIn env rt) (fun _ s' => Open s s') (fun _ s' => Open s s') s := by
  refine wp_mono (fun r s' h => ?_) (fun x s' h => ?_) (fillNetIn_asks env rt s)
  · obtain ⟨a, hmove, -⟩ := h
    cases hmove
    exact .silent rfl rfl rfl rfl
  · obtain ⟨-, a, hfault⟩ := h
    cases hfault
    exact .silent rfl rfl rfl rfl

theorem wp_flushNetOut_open (s : TlsStream) :
    wp (flushNetOut env) (fun _ s' => Open s s') (fun _ s' => Open s s') s := by
  have hoffers : ∀ {ws m}, Trace (Offer env .tokio) s ws m → Open s m := by
    intro ws m hws
    refine hws.rel (R := fun _ m => Open s m) (.refl s) ?_
    rintro u m e m' hu ⟨hmove, offered, r, rfl⟩
    cases hmove
    exact hu.trans (.silent rfl rfl rfl rfl)
  refine wp_mono (fun r s' h => ?_) (fun x s' h => ?_) (flushNetOut_offers env .tokio s)
  · obtain ⟨ws, hws, -⟩ := h
    exact hoffers hws
  · obtain ⟨-, ws, m, offered, r, hws, hfault⟩ := h
    cases hfault
    exact (hoffers hws).trans (.silent rfl rfl rfl rfl)

theorem wp_deliver_settles (hcap : 0 < cap) {s : TlsStream} (hbuf : s.readBuf ≠ []) {E : Stop → TlsStream → Prop} :
    wp (deliver cap) (fun r s' => Settles r s s') E s := by
  simp only [deliver, wp_bind, wp_get, wp_modify, wp_pure]
  rw [← List.take_take, List.take_length]
  refine settles_take hcap hbuf ⟨(List.append_nil _).symm, ?_⟩
  show s.readBuf.take cap ++ s.readBuf.drop (min cap s.readBuf.length) = s.readBuf ++ []
  rw [List.append_nil]
  conv_rhs => rw [← List.take_append_drop (min cap s.readBuf.length) s.readBuf, ← List.take_take, List.take_length]

/-- **The parts of a read**: a close ends it, and is an end of file where there is no plaintext. -/
theorem readRule_settles (env : Env) (rt : Runtime) (hcap : 0 < cap) (s : TlsStream) :
    ReadRule env rt cap (Open s) (Open s) (fun r => Settles r s) (fun _ => Open s) where
  inner := id
  out := id
  fill hm := wp_mono (fun r _ h => (hm.trans h).done r) (fun _ _ h => hm.trans h) (wp_fillNetIn_open _)
  deliver hm hbuf := wp_mono (fun _ _ h => hm.settles h) (fun _ _ h => h) (wp_deliver_settles hcap hbuf)
  block {m cb p} hm _ := by
    have hblock : Open s { m.ran cb (.sslRead cb (.block p)) with readBuf := m.readBuf ++ p.bytes } :=
      hm.trans ⟨[.sslRead cb (.block p)], .event rfl rfl, rfl⟩
    exact wp_mono (fun _ _ h => hblock.trans h) (fun _ _ h => hblock.trans h) (wp_flushNetOut_open _)
  closed {m cb} hm _ hbuf :=
    hm.settles ⟨[.sslRead cb .closed], .silent rfl rfl rfl, fun _ => ⟨rfl, by rw [hbuf]; rfl⟩, fun _ => rfl⟩
  rest {m cb} hm _ hbuf := by
    refine wp_mono (fun r s' h => hm.settles ?_) (fun _ _ h => h)
      (wp_deliver_settles (s := m.ran cb (.sslRead cb .closed)) hcap hbuf)
    -- there is plaintext: what is handed over is not empty, close or no close
    obtain ⟨v, hv, hend⟩ := h
    have hacc : Accounts [] m (m.ran cb (.sslRead cb .closed)) [.sslRead cb .closed] := .silent rfl rfl rfl
    refine ⟨_, hacc.trans hv, fun hok => ?_, fun hclose => ?_⟩
    · exact absurd (List.append_eq_nil_iff.1 (hend.1 hok).2).1 hbuf
    · exact absurd (List.append_eq_nil_iff.1 hclose.2).1 hbuf
  wantsRead hm _ := hm.failed
  wantsWrite hm _ := wp_mono (fun r _ h => (hm.failed.trans h).done r) (fun _ _ h => hm.failed.trans h)
    (wp_flushNetOut_open _)
  failed hm _ _ _ := hm.failed.refused rfl

theorem pollRead_of_room (hcap : 0 < cap) : rt.pollRead env cap n = pollReadLoop env rt cap n := by
  cases rt with
  | tokio => rfl
  | futuresIo =>
    simp only [Runtime.pollRead, FuturesIo.pollRead]
    rw [if_neg (Nat.ne_of_gt hcap)]

/-- Where there is neither plaintext nor ciphertext the transport is asked before `wolfSSL_read`, and its answer is the
read's. -/
theorem wp_pollReadLoop_dry {s : TlsStream} (hbuf : s.readBuf = []) (hin : s.net.netIn = [])
    (hdry : (env.ioRead s.log).supplies rt = false) :
    wp (pollReadLoop env rt cap (n + 1)) (fun r _ => r ≠ .ok []) (fun _ _ => True) s := by
  rw [pollReadLoop, loop]
  simp only [pollPass, wp_bind, wp_get]
  rw [if_pos hbuf]
  simp only [refill, wp_bind, wp_get]
  rw [if_pos hin]
  simp only [fillNetIn, wp_bind, wp_get, wp_modify]
  generalize env.ioRead s.log = r at hdry
  cases r with
  | pending => exact fun h => by cases h
  | err e => exact fun h => by cases h
  | ok d =>
    cases d with
    | nil => exact fun h => by cases h
    | cons b d =>
      simp only
      rw [if_neg (by rw [show rt.accepts (b :: d).length = false from hdry]; exact Bool.false_ne_true)]
      trivial

theorem cleanReadReady_drained {s : TlsStream} (hbuf : s.readBuf = []) (ev : List Event) :
    CleanReadReady env rt s ev ↔ (s.net.netIn ≠ [] ∨ (env.ioRead s.log).supplies rt = true) ∧
      sawClose ev = true ∧ ev.any Event.handsOver = false := by
  unfold CleanReadReady
  exact or_iff_right (not_not.2 hbuf)

/-- A read with no plaintext left ends the file exactly if there is ciphertext to be had and the close comes first. -/
theorem drained_read_iff {s s' : TlsStream} {r : Poll Bytes} {ev : List Event} (hbuf : s.readBuf = [])
    (hrun : (pollReadLoop env rt cap (n + 1)).run s = .ok r s')
    (hend : r = .ok [] ↔ sawClose ev = true ∧ s.readBuf ++ plaintext ev = []) :
    r = .ok [] ↔ CleanReadReady env rt s ev := by
  have hplain : plaintext ev = [] ↔ ev.any Event.handsOver = false := by
    rw [← Bool.not_eq_true, ← plaintext_ne_nil_iff, not_not]
  rw [hbuf, List.nil_append, hplain] at hend
  rw [cleanReadReady_drained hbuf, ← hend]
  refine ⟨fun hok => ⟨?_, hok⟩, And.right⟩
  by_contra hdry
  rw [not_or, not_not, Bool.not_eq_true] at hdry
  exact wp_ok (wp_pollReadLoop_dry hbuf hdry.1 hdry.2) hrun hok

/-- **One read**, and the answers it was given: it is clean exactly if it has what it needs. -/
theorem clean_read_iff (env : Env) (rt : Runtime) (n : Nat) (hcap : 0 < cap) (s : TlsStream) :
    ∃ ev, (run env rt (n + 1) [.read cap] s).stream.log = s.log ++ ev ∧
      ((∃ s', (rt.pollRead env cap (n + 1)).run s = .ok (.ok (s.readBuf.take cap)) s') ↔ CleanReadReady env rt s ev) := by
  have hsettles := (readRule_settles env rt hcap s).pollReadLoop (n + 1) (.refl s)
  rw [run, Call.poll, map_eq_pure_bind, EStateM.run_bind, pollRead_of_room hcap]
  by_cases hbuf : s.readBuf = []
  · rw [hbuf, List.take_nil]
    cases hrun : (pollReadLoop env rt cap (n + 1)).run s with
    | error e s' =>
      obtain ⟨ev, hacc, hnone⟩ := wp_error hsettles hrun
      refine ⟨ev, hacc.log, ?_⟩
      rw [cleanReadReady_drained hbuf, hnone]
      constructor
      · rintro ⟨_, h⟩
        cases h
      · rintro ⟨-, h, -⟩
        cases h
    | ok r s' =>
      obtain ⟨ev, hacc, hend⟩ := wp_ok hsettles hrun
      refine ⟨ev, hacc.log, ?_⟩
      rw [← drained_read_iff hbuf hrun hend]
      constructor
      · rintro ⟨s'', h⟩
        cases h
        rfl
      · rintro rfl
        exact ⟨s', rfl⟩
  · have htake := wp_pollReadLoop_buffered env rt cap (n + 1) s hbuf
    cases hrun : (pollReadLoop env rt cap (n + 1)).run s with
    | error e s' => cases wp_error htake hrun
    | ok r s' =>
      obtain ⟨ev, hacc, -⟩ := wp_ok hsettles hrun
      refine ⟨ev, hacc.log, fun _ => .inl hbuf, fun _ => ⟨s', ?_⟩⟩
      rw [wp_ok htake hrun]

end Reads

/-! ## In a run -/

theorem run_append (env : Env) (rt : Runtime) (n : Nat) (post : List Call) : ∀ (pre : List Call) (s : TlsStream),
    (run env rt n pre s).stop = none →
      (run env rt n pre s).returned.length = pre.length ∧
      (run env rt n (pre ++ post) s).returned =
        (run env rt n pre s).returned ++ (run env rt n post (run env rt n pre s).stream).returned
  | [], _, _ => ⟨rfl, rfl⟩
  | c :: pre, s, h => by
    rw [List.cons_append, run, run] at *
    cases hrun : (c.poll env rt n).run s with
    | error e s' => rw [hrun] at h; cases h
    | ok r s' =>
      rw [hrun] at h
      obtain ⟨hlen, happ⟩ := run_append env rt n post pre s' h
      exact ⟨congrArg (· + 1) hlen, congrArg (r :: ·) happ⟩

theorem returned_read_iff (env : Env) (rt : Runtime) (n cap : Nat) (post : List Call) (s : TlsStream) (r : Poll Bytes) :
    (run env rt n (.read cap :: post) s).returned.head? = some (.read r) ↔
      ∃ s', (rt.pollRead env cap n).run s = .ok r s' := by
  rw [run, Call.poll, map_eq_pure_bind, EStateM.run_bind]
  cases (rt.pollRead env cap n).run s with
  | error e s' =>
    constructor
    · intro h
      cases h
    · rintro ⟨_, h⟩
      cases h
  | ok a s' =>
    constructor
    · intro h
      cases h
      exact ⟨s', rfl⟩
    · rintro ⟨_, h⟩
      cases h
      rfl

/-- **Which reads after the close are clean**: in any run of either stream, a read with room in its buffer that comes
after a `wolfSSL_read` has returned zero gives the plaintext still buffered, or an end of file when there is none,
exactly if it has what it needs of the stream and of the answers `ev` it meets.  That the close has been seen is of no
use to it: the stream keeps no note of it. -/
theorem read_after_close_clean_iff (env : Env) (rt : Runtime) (n : Nat) (calls : List Call) (s : TlsStream) :
    ∀ (pre : List Call) (cap : Nat) (post : List Call), calls = pre ++ .read cap :: post → 0 < cap →
      (run env rt (n + 1) pre s).stop = none → sawClose (run env rt (n + 1) pre s).stream.log = true →
      ∃ ev, (run env rt (n + 1) [.read cap] (run env rt (n + 1) pre s).stream).stream.log =
          (run env rt (n + 1) pre s).stream.log ++ ev ∧
        ((run env rt (n + 1) calls s).returned[pre.length]? =
            some (.read (.ok ((run env rt (n + 1) pre s).stream.readBuf.take cap))) ↔
          CleanReadReady env rt (run env rt (n + 1) pre s).stream ev) := by
  rintro pre cap post rfl hcap hstop -
  obtain ⟨hlen, happ⟩ := run_append env rt (n + 1) (.read cap :: post) pre s hstop
  obtain ⟨ev, hlog, hclean⟩ := clean_read_iff env rt n hcap (run env rt (n + 1) pre s).stream
  refine ⟨ev, hlog, ?_⟩
  rw [← hclean, ← returned_read_iff env rt (n + 1) cap post, happ, ← hlen, List.getElem?_append_right (Nat.le_refl _),
    Nat.sub_self, List.head?_eq_getElem?]

/-- A peer that sends one record and its close_notify in one piece; the transport answers `later` after that, and
`wolfSSL_read` answers `again` once it has returned zero. -/
def closingPeer (later : Poll Bytes) (again : ReadRet) : Env where
  ioRead log := if log = [] then .ok (List.replicate 14 23) else later
  ioWrite _ buf := .ok buf.length
  ioShutdown _ := .ok ()
  sslRead log :=
    if sawClose log then ⟨[], again⟩
    else if log.any Event.handsOver then ⟨[.recv 5, .recv 2], .closed⟩
    else ⟨[.recv 5, .recv 2], .block hello⟩
  sslWrite _ buf := ⟨[.send buf], ⟨buf.length, 0⟩⟩
  sslShutdown _ := ⟨[], ⟨1, 0⟩⟩
  sslHandshake _ := ⟨[], ⟨1, 0⟩⟩
  errorString _ := "received close notify"

/-- With both bytes of the record read, a transport that has more to give and a `wolfSSL_read` that returns zero again
make the next read clean; one that refuses does not. -/
theorem read_after_close_clean_supplied :
    (run (closingPeer (.ok [0]) .closed) .tokio 2 [.read 16, .read 16] newStream).returned[1]? = some (.read (.ok [])) ∧
      (run (closingPeer (.ok [0]) (.failed 6)) .tokio 2 [.read 16, .read 16] newStream).returned[1]? ≠
        some (.read (.ok [])) := by
  constructor
  · obtain ⟨ev, hlog, hiff⟩ := read_after_close_clean_iff (closingPeer (.ok [0]) .closed) .tokio 1 [.read 16, .read 16]
      newStream [.read 16] 16 [] rfl (by decide) rfl rfl
    have hev : ev = [.ioRead (.ok [0]), .sslRead [] .closed] := (List.append_right_inj _).1 hlog.symm
    exact hiff.2 (by rw [hev]; decide)
  · obtain ⟨ev, hlog, hiff⟩ := read_after_close_clean_iff (closingPeer (.ok [0]) (.failed 6)) .tokio 1
      [.read 16, .read 16] newStream [.read 16] 16 [] rfl (by decide) rfl rfl
    have hev : ev = [.ioRead (.ok [0]), .sslRead [] (.failed 6)] := (List.append_right_inj _).1 hlog.symm
    exact fun h => absurd (hiff.1 h) (by rw [hev]; decide)

/-- **Once the buffers are drained the close is forgotten**: in both streams the read after the one in which
`wolfSSL_read` returned zero hangs on a transport that is silent, and reports a broken stream on one that has ended. -/
theorem close_forgotten :
    sawClose (run (closingPeer .pending .closed) .tokio 2 [.read 16] newStream).stream.log = true ∧
    (run (closingPeer .pending .closed) .tokio 2 [.read 16, .read 16] newStream).returned =
      [.read (.ok [104, 105]), .read .pending] ∧
    (run (closingPeer (.ok []) .closed) .tokio 2 [.read 16, .read 16] newStream).returned =
      [.read (.ok [104, 105]), .read (.err ⟨.unexpectedEof, "peer closed the connection"⟩)] ∧
    (run (closingPeer .pending .closed) .futuresIo 2 [.read 16, .read 16] newStream).returned =
      [.read (.ok [104, 105]), .read .pending] ∧
    (run (closingPeer (.ok []) .closed) .futuresIo 2 [.read 16, .read 16] newStream).returned =
      [.read (.ok [104, 105]), .read (.err ⟨.unexpectedEof, "peer closed the connection"⟩)] :=
  ⟨rfl, rfl, rfl, rfl, rfl⟩

end Tls
end Wolf
