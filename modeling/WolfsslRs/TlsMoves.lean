import WolfsslRs.TlsHandshake
import WolfsslRs.Trace
/-!
# TlsMoves — what a stream can do

Whatever the caller polls, the stream does one of eight things at a time: it asks the transport to read, to write what is
in `netOut` or, `netOut` being empty and the close_notify sent, to shut down; it calls wolfSSL; or it touches its
plaintext buffer only.  Every poll is a run of such moves, broken off where a transport reports more bytes than it was
handed; what holds over the life of a stream is then shown move by move.
-/
namespace Wolf
namespace Tls

open Program

/-- The number of bytes a transport says it has taken. -/
def Poll.count : Poll Nat → Nat
  | .ok n => n
  | _ => 0

def Poll.isPending {α : Type} : Poll α → Bool
  | .pending => true
  | _ => false

/-- **One thing the stream does**, and the event it is seen as. -/
inductive Move (env : Env) (rt : Runtime) (s : TlsStream) : Option Event → TlsStream → Prop
  | ioRead {r : Poll Bytes} (hr : env.ioRead s.log = r) (hfits : rt.accepts r.bytes.length = true) :
      Move env rt s (some (.ioRead r)) { s.record (.ioRead r) with net.netIn := s.net.netIn ++ r.bytes }
  | ioWrite {r : Poll Nat} (hr : env.ioWrite s.log s.net.netOut = r) (hfits : r.count ≤ s.net.netOut.length) :
      Move env rt s (some (.ioWrite s.net.netOut r))
        { s.record (.ioWrite s.net.netOut r) with net.netOut := s.net.netOut.drop r.count }
  | ioShutdown {r : Poll Unit} (hr : env.ioShutdown s.log = r) (hempty : s.net.netOut = [])
      (hsent : s.shutdownSent = true) : Move env rt s (some (.ioShutdown r)) (s.record (.ioShutdown r))
  | sslRead {a : Reply ReadRet} (ha : env.sslRead s.log = a) :
      Move env rt s (some (.sslRead a.callbacks a.ret)) (s.ran a.callbacks (.sslRead a.callbacks a.ret))
  | sslWrite {buf : Bytes} {a : Reply SslRet} (ha : env.sslWrite s.log buf = a) :
      Move env rt s (some (.sslWrite buf a.callbacks a.ret)) (s.ran a.callbacks (.sslWrite buf a.callbacks a.ret))
  | sslHandshake {a : Reply SslRet} (ha : env.sslHandshake s.log = a) :
      Move env rt s (some (.sslHandshake a.callbacks a.ret)) (s.ran a.callbacks (.sslHandshake a.callbacks a.ret))
  | sslShutdown {a : Reply SslRet} (ha : env.sslShutdown s.log = a) (hfirst : s.shutdownSent = false) :
      Move env rt s (some (.sslShutdown a.callbacks a.ret))
        { s.ran a.callbacks (.sslShutdown a.callbacks a.ret) with shutdownSent := true }
  | hold (buf : Bytes) : Move env rt s none { s with readBuf := buf }

/-- A transport that reports more bytes than it was handed: the stream panics and its buffers stay as they were. -/
inductive Fault (env : Env) (rt : Runtime) (s : TlsStream) : Event → TlsStream → Prop
  | ioRead {d : Bytes} (hr : env.ioRead s.log = .ok d) (hover : rt.accepts d.length = false) :
      Fault env rt s (.ioRead (.ok d)) (s.record (.ioRead (.ok d)))
  | ioWrite {n : Nat} (hr : env.ioWrite s.log s.net.netOut = .ok n) (hover : s.net.netOut.length < n) :
      Fault env rt s (.ioWrite s.net.netOut (.ok n)) (s.record (.ioWrite s.net.netOut (.ok n)))

abbrev Moves (env : Env) (rt : Runtime) : TlsStream → List Event → TlsStream → Prop := Trace (Move env rt)

/-- **The course of a poll that does not return, or of a run**: moves and, if it panicked, the fault after them. -/
def Course (env : Env) (rt : Runtime) (stop : Option Stop) (s : TlsStream) (ev : List Event) (s' : TlsStream) : Prop :=
  Moves env rt s ev s' ∨
    stop = some .panicked ∧ ∃ pre m e, ev = pre ++ [e] ∧ Moves env rt s pre m ∧ Fault env rt m e s'

/-- The answers of a transport that is not ready: it has kept the context's waker. -/
def Event.stalls : Event → Bool
  | .ioRead .pending | .ioWrite _ .pending | .ioShutdown .pending => true
  | _ => false

/-- A poll that has come to an answer: it made its moves, and if the answer is `Pending` the transport stalled in one. -/
def Polled (env : Env) (rt : Runtime) (pending : Bool) (s s' : TlsStream) : Prop :=
  ∃ ev, Moves env rt s ev s' ∧ (pending = true → ev.any Event.stalls = true)

/-- A poll left without an answer. -/
def Leaves (env : Env) (rt : Runtime) (s : TlsStream) (e : Stop) (s' : TlsStream) : Prop :=
  ∃ ev, Course env rt (some e) s ev s'

section Compose

variable {env : Env} {rt : Runtime} {s m s' : TlsStream}

theorem Move.log {e : Option Event} (h : Move env rt s e s') : s'.log = s.log ++ e.toList := by
  cases h with
  | hold buf => exact (List.append_nil _).symm
  | _ => rfl

theorem Moves.log {ev : List Event} (h : Moves env rt s ev s') : s'.log = s.log ++ ev := by
  refine h.rel (R := fun u m => m.log = s.log ++ u) (List.append_nil _).symm ?_
  intro u m e m' hu hm
  rw [hm.log, hu, List.append_assoc]

theorem Moves.polled {u : List Event} (h : Moves env rt s u s') : Polled env rt false s s' := ⟨u, h, fun h => by cases h⟩

theorem Polled.refl (s : TlsStream) : Polled env rt false s s := Moves.polled .refl

theorem Polled.after {b b' : Bool} (h : Polled env rt b s m) (h' : Polled env rt b' m s') : Polled env rt b' s s' := by
  obtain ⟨u, hu, -⟩ := h
  obtain ⟨v, hv, hstall⟩ := h'
  refine ⟨u ++ v, hu.trans hv, fun hb => ?_⟩
  rw [List.any_append, hstall hb, Bool.or_true]

theorem Polled.weaken {b : Bool} (h : Polled env rt b s s') : Polled env rt false s s' := by
  obtain ⟨ev, h, -⟩ := h
  exact h.polled

theorem Course.after {stop : Option Stop} {u v : List Event} (h : Moves env rt s u m)
    (h' : Course env rt stop m v s') : Course env rt stop s (u ++ v) s' := by
  rcases h' with h' | ⟨hstop, pre, m', e, rfl, hpre, hfault⟩
  · exact .inl (h.trans h')
  · exact .inr ⟨hstop, u ++ pre, m', e, (List.append_assoc _ _ _).symm, h.trans hpre, hfault⟩

theorem Leaves.after {b : Bool} {e : Stop} (h : Polled env rt b s m) (h' : Leaves env rt m e s') :
    Leaves env rt s e s' := by
  obtain ⟨u, hu, -⟩ := h
  obtain ⟨v, hv⟩ := h'
  exact ⟨u ++ v, hv.after hu⟩

theorem Polled.leaves {b : Bool} {e : Stop} (h : Polled env rt b s s') : Leaves env rt s e s' := by
  obtain ⟨ev, h, -⟩ := h
  exact ⟨ev, .inl h⟩

theorem Fault.leaves {e : Event} (h : Fault env rt s e s') : Leaves env rt s .panicked s' :=
  ⟨[e], .inr ⟨rfl, [], s, e, rfl, .refl, h⟩⟩

/-- A move seen as an event, with whether the transport stalled in it. -/
theorem Move.polled {e : Event} (h : Move env rt s (some e) s') : Polled env rt e.stalls s s' :=
  ⟨[e], .event h, fun hb => by rw [List.any_cons, hb, Bool.true_or]⟩

theorem Move.idleRead {r : Poll Bytes} (hr : env.ioRead s.log = r) (hnone : r.bytes = []) :
    Move env rt s (some (.ioRead r)) (s.record (.ioRead r)) := by
  have hfits : rt.accepts r.bytes.length = true := by
    rw [hnone]
    cases rt <;> rfl
  have h := Move.ioRead hr hfits
  rwa [hnone, List.append_nil] at h

theorem Move.idleWrite {r : Poll Nat} (hr : env.ioWrite s.log s.net.netOut = r) (hnone : r.count = 0) :
    Move env rt s (some (.ioWrite s.net.netOut r)) (s.record (.ioWrite s.net.netOut r)) := by
  have h : Move env rt s _ _ := .ioWrite hr (by rw [hnone]; exact Nat.zero_le _)
  rwa [hnone, List.drop_zero] at h

theorem Polled.asked {cb : List Callback} {ret : ReadRet} (h : Polled env rt false s m)
    (hr : env.sslRead m.log = ⟨cb, ret⟩) : Polled env rt false s (m.ran cb (.sslRead cb ret)) :=
  h.after (Move.polled (.sslRead hr))

theorem wp_after {α : Type} {p : Task α} {f : α → Bool} {b : Bool} (h : Polled env rt b s m)
    (hp : wp p (fun a s' => Polled env rt (f a) m s') (Leaves env rt m) m) :
    wp p (fun a s' => Polled env rt (f a) s s') (Leaves env rt s) m :=
  wp_mono (fun _ _ h' => h.after h') (fun _ _ h' => h'.after h) hp

end Compose

/-! ## The polls are runs of moves -/

section Parts

variable (env : Env) (rt : Runtime)

/-- **A refill asks the transport once**, and breaks off where that reports more than it was given room for. -/
theorem fillNetIn_asks (s : TlsStream) :
    wp (fillNetIn env rt) (fun r s' => ∃ a, Move env rt s (some (.ioRead a)) s' ∧ (r.isPending = true → a = .pending))
      (fun x s' => x = .panicked ∧ ∃ a, Fault env rt s (.ioRead a) s') s := by
  simp only [fillNetIn, wp_bind, wp_get, wp_modify]
  cases hr : env.ioRead s.log with
  | pending => exact ⟨_, .idleRead hr rfl, fun _ => rfl⟩
  | err e => exact ⟨_, .idleRead hr rfl, fun h => by cases h⟩
  | ok d =>
    cases d with
    | nil => exact ⟨_, .idleRead hr rfl, fun h => by cases h⟩
    | cons b d =>
      simp only
      split
      · rename_i hfits
        exact ⟨_, .ioRead hr hfits, fun h => by cases h⟩
      · rename_i hover
        exact ⟨rfl, _, .ioRead hr (eq_false_of_ne_true hover)⟩

theorem fillNetIn_moves (s : TlsStream) :
    wp (fillNetIn env rt) (fun r s' => Polled env rt r.isPending s s') (Leaves env rt s) s := by
  refine wp_mono (fun r s' h => ?_) (fun x s' h => ?_) (fillNetIn_asks env rt s)
  · obtain ⟨a, hmove, hpending⟩ := h
    refine ⟨[.ioRead a], .event hmove, fun hr => ?_⟩
    rw [hpending hr]
    rfl
  · obtain ⟨rfl, a, hfault⟩ := h
    exact hfault.leaves

/-- A move that offers the transport what is in `netOut`. -/
def Offer (s : TlsStream) (e : Option Event) (s' : TlsStream) : Prop :=
  Move env rt s e s' ∧ ∃ offered r, e = some (.ioWrite offered r)

/-- A write that has not even begun: the flush goes no further. -/
theorem Offer.idle {s : TlsStream} {r : Poll Nat} (hr : env.ioWrite s.log s.net.netOut = r) (hnone : r.count = 0) :
    Trace (Offer env rt) s [.ioWrite s.net.netOut r] (s.record (.ioWrite s.net.netOut r)) :=
  .event ⟨Move.idleWrite hr hnone, _, _, rfl⟩

/-- **What the answer of a flush says** of the writes it made and of what it left in `netOut`. -/
def Poll.Flushed (ws : List Event) (out : Bytes) : Poll Unit → Prop
  | .ok _ => out = [] ∧ ∀ offered r, .ioWrite offered r ∈ ws → 0 < r.count
  | .pending => ∃ offered, .ioWrite offered .pending ∈ ws
  | .err _ => out ≠ [] ∧ ∃ offered r, .ioWrite offered r ∈ ws ∧ r.count = 0

theorem Poll.Flushed.cons {e : Event} {ws : List Event} {out : Bytes} {a : Poll Unit} (h : a.Flushed ws out)
    (he : ∀ offered r, e = .ioWrite offered r → 0 < r.count) : a.Flushed (e :: ws) out := by
  cases a with
  | ok u =>
    refine ⟨h.1, fun offered r hr => ?_⟩
    rcases List.mem_cons.1 hr with hr | hr
    · exact he offered r hr.symm
    · exact h.2 offered r hr
  | pending =>
    obtain ⟨offered, hr⟩ := h
    exact ⟨offered, List.mem_cons_of_mem _ hr⟩
  | err x =>
    obtain ⟨hout, offered, r, hr, hnone⟩ := h
    exact ⟨hout, offered, r, List.mem_cons_of_mem _ hr, hnone⟩

/-- **A flush offers and nothing else**, `k` passes being enough for what is in `netOut`; it breaks off at a transport
that reports more than it was offered. -/
theorem flushLoop_offers : ∀ (k : Nat) (s : TlsStream), s.net.netOut.length ≤ k →
    wp (flushLoop env k) (fun r s' => ∃ ws, Trace (Offer env rt) s ws s' ∧ r.Flushed ws s'.net.netOut)
      (fun x s' => x = .panicked ∧ ∃ ws m offered r, Trace (Offer env rt) s ws m ∧
        Fault env rt m (.ioWrite offered r) s') s
  | 0, s, hk => ⟨[], .refl, List.eq_nil_of_length_eq_zero (Nat.le_zero.1 hk), fun _ _ h => by cases h⟩
  | k + 1, s, hk => by
    simp only [flushLoop, wp_bind, wp_get]
    split
    · rename_i hempty
      exact ⟨[], .refl, hempty, fun _ _ h => by cases h⟩
    · rename_i hsome
      simp only [wp_bind, wp_modify]
      cases hr : env.ioWrite s.log s.net.netOut with
      | pending => exact ⟨_, Offer.idle env rt hr rfl, _, List.mem_cons_self⟩
      | err e => exact ⟨_, Offer.idle env rt hr rfl, hsome, _, _, List.mem_cons_self, rfl⟩
      | ok n =>
        cases n with
        | zero => exact ⟨_, Offer.idle env rt hr rfl, hsome, _, _, List.mem_cons_self, rfl⟩
        | succ n =>
          simp only
          split
          · rename_i hfits
            simp only [wp_bind, wp_modify]
            have hmove : Trace (Offer env rt) s [_] _ := .event ⟨.ioWrite hr hfits, _, _, rfl⟩
            -- the pass took `n + 1` bytes out of `netOut`, so the passes left are enough for the rest
            have hk' : (s.net.netOut.drop (n + 1)).length ≤ k := by
              rw [List.length_drop]
              omega
            refine wp_mono (fun r s' h => ?_) (fun x s' h => ?_) (flushLoop_offers k _ hk')
            · obtain ⟨ws, hws, hend⟩ := h
              exact ⟨_, hmove.trans hws, hend.cons fun _ _ he => by cases he; exact Nat.succ_pos n⟩
            · obtain ⟨hx, ws, m, offered, r, hws, hfault⟩ := h
              exact ⟨hx, _, m, offered, r, hmove.trans hws, hfault⟩
          · rename_i hover
            exact ⟨rfl, [], s, _, _, .refl, .ioWrite hr (Nat.lt_of_not_le hover)⟩

theorem flushNetOut_offers (s : TlsStream) :
    wp (flushNetOut env) (fun r s' => ∃ ws, Trace (Offer env rt) s ws s' ∧ r.Flushed ws s'.net.netOut)
      (fun x s' => x = .panicked ∧ ∃ ws m offered r, Trace (Offer env rt) s ws m ∧
        Fault env rt m (.ioWrite offered r) s') s := by
  simp only [flushNetOut, wp_bind, wp_get]
  exact flushLoop_offers env rt _ s (Nat.le_refl _)

section Offers

variable {env rt}

theorem Offers.moves {s s' : TlsStream} {ws : List Event} (h : Trace (Offer env rt) s ws s') : Moves env rt s ws s' :=
  h.image id fun _ _ _ hstep => hstep.1

theorem Offers.shutdownSent {s s' : TlsStream} {ws : List Event} (h : Trace (Offer env rt) s ws s') :
    s'.shutdownSent = s.shutdownSent := by
  refine h.rel (R := fun _ m => m.shutdownSent = s.shutdownSent) rfl ?_
  rintro u m e m' hu ⟨hmove, offered, r, rfl⟩
  rw [← hu]
  cases hmove
  rfl

end Offers

/-- A flush that says it is done has left `netOut` empty. -/
theorem flushNetOut_moves (s : TlsStream) :
    wp (flushNetOut env) (fun r s' => Polled env rt r.isPending s s' ∧ s'.shutdownSent = s.shutdownSent ∧
      (r = .ok () → s'.net.netOut = [])) (Leaves env rt s) s := by
  refine wp_mono (fun r s' h => ?_) (fun x s' h => ?_) (flushNetOut_offers env rt s)
  · obtain ⟨ws, hws, hend⟩ := h
    refine ⟨⟨ws, Offers.moves hws, fun hr => ?_⟩, Offers.shutdownSent hws, fun hr => by subst hr; exact hend.1⟩
    cases r with
    | pending =>
      obtain ⟨offered, hmem⟩ := hend
      exact List.any_eq_true.2 ⟨_, hmem, rfl⟩
    | ok u => cases hr
    | err e => cases hr
  · obtain ⟨rfl, ws, m, offered, r, hws, hfault⟩ := h
    exact ⟨_, .inr ⟨rfl, ws, m, _, rfl, Offers.moves hws, hfault⟩⟩

theorem flushNetOut_polled (s : TlsStream) :
    wp (flushNetOut env) (fun r s' => Polled env rt r.isPending s s') (Leaves env rt s) s :=
  wp_mono (fun _ _ h => h.1) (fun _ _ h => h) (flushNetOut_moves env rt s)

theorem deliver_moves (cap : Nat) (s : TlsStream) {E : Stop → TlsStream → Prop} :
    wp (deliver cap) (fun r s' => Polled env rt r.isPending s s') E s := by
  simp only [deliver, wp_bind, wp_get, wp_modify, wp_pure]
  exact Moves.polled (.silent (.hold _))

theorem loop_moves {α : Type} {body : Task (Option α)} {f : α → Bool} (n : Nat) (s : TlsStream)
    (hbody : ∀ m, wp body (passes (Polled env rt false m) fun a s' => Polled env rt (f a) m s') (Leaves env rt m) m) :
    wp (loop body .running n) (fun a s' => Polled env rt (f a) s s') (Leaves env rt s) s := by
  refine wp_loop (I := Polled env rt false s) (E := Leaves env rt s) (fun m hm => ?_) (fun _ h => h.leaves) n s (.refl s)
  refine wp_mono (fun o s' h => ?_) (fun _ _ h => h.after hm) (hbody m)
  cases o <;> exact hm.after h

theorem readRule_moves (cap : Nat) (s : TlsStream) : ReadRule env rt cap (Polled env rt false s) (Polled env rt false s)
    (fun r => Polled env rt r.isPending s) (Leaves env rt s) where
  inner := id
  out := Polled.leaves
  fill hm := by
    refine wp_mono (fun r s' h => ?_) (fun _ _ h => h) (wp_after hm (fillNetIn_moves env rt _))
    cases r <;> exact h
  deliver hm _ := wp_after hm (deliver_moves env rt cap _)
  block {m cb p} hm hr := by
    have hkept : Polled env rt false s _ :=
      (hm.asked hr).after (Moves.polled (.silent (.hold (m.readBuf ++ p.bytes))))
    exact wp_mono (fun _ _ h => h.weaken) (fun _ _ h => h) (wp_after hkept (flushNetOut_polled env rt _))
  closed hm hr _ := hm.asked hr
  rest hm hr _ := wp_after (hm.asked hr) (deliver_moves env rt cap _)
  wantsRead hm hr := hm.asked hr
  wantsWrite hm hr := by
    refine wp_mono (fun r s' h => ?_) (fun _ _ h => h) (wp_after (hm.asked hr) (flushNetOut_polled env rt _))
    cases r <;> exact h
  failed hm hr _ _ := hm.asked hr

theorem pollRead_moves (cap n : Nat) (s : TlsStream) :
    wp (rt.pollRead env cap n) (fun r s' => Polled env rt r.isPending s s') (Leaves env rt s) s :=
  (readRule_moves env rt cap s).pollRead n (.refl s) (.refl s)

theorem writePass_moves (buf : Bytes) (s : TlsStream) :
    wp (writePass env rt buf) (passes (Polled env rt false s) fun r s' => Polled env rt r.isPending s s')
      (Leaves env rt s) s := by
  simp only [writePass, sslWrite, wp_bind, wp_get, wp_modify, wp_pure]
  have hmove : Polled env rt _ s _ := Move.polled (.sslWrite (Eq.refl (env.sslWrite s.log (buf.take i32Max))))
  have hflush := wp_after hmove (flushNetOut_polled env rt _)
  split
  · simp only [wp_bind]
    exact wp_mono (fun _ _ h => h.weaken) (fun _ _ h => h) hflush
  · split
    · simp only [wp_bind]
      refine wp_mono (fun r s' h => ?_) (fun _ _ h => h) hflush
      cases r <;> exact h
    · split
      · simp only [wp_bind]
        refine wp_mono (fun r s' h => ?_) (fun _ _ h => h) (wp_after hmove (fillNetIn_moves env rt _))
        cases r <;> exact h
      · exact hmove

theorem pollWrite_moves (buf : Bytes) (n : Nat) (s : TlsStream) :
    wp (pollWrite env rt buf n) (fun r s' => Polled env rt r.isPending s s') (Leaves env rt s) s := by
  unfold pollWrite
  split
  · exact .refl s
  · exact loop_moves env rt n s (writePass_moves env rt buf)

/-- The transport is shut down only once the close_notify is on its way and `netOut` empty. -/
theorem closeTransport_moves (s : TlsStream) (hsent : s.shutdownSent = true) :
    wp (closeTransport env) (fun r s' => Polled env rt r.isPending s s') (Leaves env rt s) s := by
  simp only [closeTransport, wp_bind]
  refine wp_mono (fun r m h => ?_) (fun _ _ h => h) (flushNetOut_moves env rt s)
  obtain ⟨hpolled, hkeep, hempty⟩ := h
  cases r with
  | pending => exact hpolled
  | err e => exact hpolled
  | ok u =>
    simp only [wp_bind, wp_get, wp_modify, wp_pure]
    have hmove : Polled env rt _ m _ :=
      Move.polled (.ioShutdown (Eq.refl (env.ioShutdown m.log)) (hempty rfl) (hkeep.trans hsent))
    generalize env.ioShutdown m.log = r at hmove ⊢
    have hr : (Event.ioShutdown r).stalls = r.isPending := by cases r <;> rfl
    rw [hr] at hmove
    exact hpolled.after hmove

theorem pollShutdown_moves (s : TlsStream) :
    wp (pollShutdown env) (fun r s' => Polled env rt r.isPending s s') (Leaves env rt s) s := by
  simp only [pollShutdown, sslShutdown, wp_bind, wp_get]
  split
  · rename_i hsent
    exact closeTransport_moves env rt s hsent
  · rename_i hsent
    simp only [wp_bind, wp_get, wp_modify, wp_pure]
    have hmove : Polled env rt _ s _ :=
      Move.polled (.sslShutdown (Eq.refl (env.sslShutdown s.log)) (eq_false_of_ne_true hsent))
    split
    · exact hmove
    · exact wp_after hmove (closeTransport_moves env rt _ rfl)

def Returned.isPending : Returned → Bool
  | .read r => r.isPending
  | .write r => r.isPending
  | .flush r => r.isPending
  | .shutdown r => r.isPending

/-- **Every poll of the stream is a run of moves**, and a `Pending` it returns was the transport's. -/
theorem poll_moves (n : Nat) (c : Call) (s : TlsStream) :
    wp (c.poll env rt n) (fun r s' => Polled env rt r.isPending s s') (Leaves env rt s) s := by
  cases c with
  | read cap => exact wp_map.2 (pollRead_moves env rt cap n s)
  | write buf => exact wp_map.2 (pollWrite_moves env rt buf n s)
  | flush => exact wp_map.2 (flushNetOut_polled env rt s)
  | shutdown => exact wp_map.2 (pollShutdown_moves env rt s)

end Parts

/-- **A whole run is a run of moves**, with a fault at its end if it panicked. -/
theorem run_course (env : Env) (rt : Runtime) (n : Nat) : ∀ (calls : List Call) (s : TlsStream),
    ∃ ev, Course env rt (run env rt n calls s).stop s ev (run env rt n calls s).stream
  | [], s => ⟨[], .inl .refl⟩
  | c :: calls, s => by
    have hc := poll_moves env rt n c s
    rw [run]
    cases hrun : (c.poll env rt n).run s with
    | error e s' => exact wp_error hc hrun
    | ok r s' =>
      obtain ⟨u, hu, -⟩ := wp_ok hc hrun
      obtain ⟨v, hv⟩ := run_course env rt n calls s'
      exact ⟨u ++ v, hv.after hu⟩

end Tls
end Wolf
