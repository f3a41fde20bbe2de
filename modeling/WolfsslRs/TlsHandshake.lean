import WolfsslRs.TlsRead
/-!
# TlsHandshake — the Connect and Accept futures

Both crates drive `wolfSSL_connect` and `wolfSSL_accept` by the same loop: flush what wolfSSL wrote, refill when it wants
to read, and hand the stream over once the handshake has succeeded and the output is on the wire.
-/
namespace Wolf
namespace Tls

open Program

inductive TlsError where
  | invalidConfig (msg : String)
  | certificateVerification (code : Int) (reason : String)
  | io (e : IoError)
  | allocFailed (func : String)
  | ffi (code : Int) (func : String)
  | closed
  deriving DecidableEq, Repr

/-- The error type of the two asynchronous crates. -/
inductive Error where
  | tls (e : TlsError)
  | io (e : IoError)
  deriving DecidableEq, Repr

/-- `Poll<Result<TlsStream, Error>>`. -/
inductive Handed where
  | pending
  | ok (stream : TlsStream)
  | err (e : Error)
  deriving DecidableEq, Repr

/-- The state of a `Connect` or `Accept` future; the stream is taken out when the future completes. -/
structure Handshake where
  state : Option TlsStream
  handshakeDone : Bool
  deriving DecidableEq, Repr

/-- A part of the stream's work, done by the future that holds it; it panics when polled after completion. -/
def onStream {α : Type} (p : Task α) : EStateM Stop Handshake α := fun h =>
  match h.state with
  | none => .error .panicked h
  | some st =>
    match p.run st with
    | .ok a st' => .ok a { h with state := some st' }
    | .error e st' => .error e { h with state := some st' }

section Future

variable (env : Env) (rt : Runtime) (func : String)

/-- The handshake is complete: flush what remains, then hand the stream over. -/
def handOver : EStateM Stop Handshake (Option Handed) := do
  match ← onStream (flushNetOut env) with
  | .pending => return some .pending
  | .err e => return some (.err (.io e))
  | .ok () =>
    match (← get).state with
    | none => throw .panicked
    | some st =>
      modify (fun h => { h with state := none })
      return some (.ok st)

def handshakePass : EStateM Stop Handshake (Option Handed) := do
  if (← get).handshakeDone then handOver env
  else
    let r ← onStream (sslHandshake env)
    if r.ret = wolfsslSuccess then
      modify (fun h => { h with handshakeDone := true })
      handOver env
    else if r.err ≠ wantRead ∧ r.err ≠ wantWrite then return some (.err (.tls (.ffi r.err func)))
    else
      match ← onStream (flushNetOut env) with
      | .pending => return some .pending
      | .err e => return some (.err (.io e))
      | .ok () =>
        if r.err = wantRead then
          match ← onStream (fillNetIn env rt) with
          | .pending => return some .pending
          | .err e => return some (.err (.io e))
          | .ok () => return none
        else return none

def handshakePoll (n : Nat) : EStateM Stop Handshake Handed := loop (handshakePass env rt func) .running n

end Future

def Connect.poll (env : Env) (rt : Runtime) (n : Nat) : EStateM Stop Handshake Handed :=
  handshakePoll env rt "wolfSSL_connect" n

def Accept.poll (env : Env) (rt : Runtime) (n : Nat) : EStateM Stop Handshake Handed :=
  handshakePoll env rt "wolfSSL_accept" n

/-- The future polled until it is ready, at most `k` times. -/
def pollUntilReady (poll : EStateM Stop Handshake Handed) : Nat → Handshake → Option Handed
  | 0, _ => none
  | k + 1, h =>
    match poll.run h with
    | .ok .pending h' => pollUntilReady poll k h'
    | .ok r _ => some r
    | .error _ _ => none

/-! ## What a completed handshake stands for -/

/-- **The future's invariant**, from the stream `s₀` it was made with: the stream it holds accounts for its plaintext,
and the handshake is done only if wolfSSL said so. -/
structure Handshake.Inv (env : Env) (s₀ : TlsStream) (h : Handshake) : Prop where
  gathers : ∀ st ∈ h.state, Gathers s₀ st
  done : h.handshakeDone = true → ∃ log, (env.sslHandshake log).ret.ret = wolfsslSuccess

/-- A stream handed over: it accounts for its plaintext, and wolfSSL said the handshake had succeeded. -/
def Handed.Sound (env : Env) (s₀ : TlsStream) : Handed → Prop
  | .ok st => Gathers s₀ st ∧ ∃ log, (env.sslHandshake log).ret.ret = wolfsslSuccess
  | _ => True

section Invariant

variable {env : Env} {s₀ : TlsStream} {h : Handshake}

/-- **The rule of `onStream`**: the part is shown of the stream the future holds, and of a future that holds none the
panic. -/
theorem wp_onStream_iff {α : Type} {p : Task α} {Q : α → Handshake → Prop} {E : Stop → Handshake → Prop} :
    wp (onStream p) Q E h ↔ (h.state = none → E .panicked h) ∧ ∀ st, h.state = some st →
      wp p (fun a st' => Q a { h with state := some st' }) (fun e st' => E e { h with state := some st' }) st := by
  cases hst : h.state with
  | none =>
    have hrun : (onStream p).run h = .error .panicked h := by simp only [EStateM.run, onStream, hst]
    rw [wp, hrun]
    exact ⟨fun hE => ⟨fun _ => hE, fun _ hs => by cases hs⟩, fun hE => hE.1 rfl⟩
  | some st =>
    have hrun : wp (onStream p) Q E h ↔
        wp p (fun a st' => Q a { h with state := some st' }) (fun e st' => E e { h with state := some st' }) st := by
      simp only [wp, EStateM.run, onStream, hst]
      cases p st <;> rfl
    rw [hrun]
    refine ⟨fun hp => ⟨fun hn => (by cases hn), fun st' hs => ?_⟩, fun hp => hp.2 st rfl⟩
    cases hs
    exact hp

theorem wp_onStream {α : Type} {p : Task α} {R : α → Prop}
    (hp : ∀ s, wp p (fun a s' => Gathers s s' ∧ R a) (fun _ s' => Gathers s s') s) (hinv : h.Inv env s₀) :
    wp (onStream p) (fun a h' => h'.Inv env s₀ ∧ h'.handshakeDone = h.handshakeDone ∧ R a)
      (fun _ h' => h'.Inv env s₀) h := by
  refine wp_onStream_iff.2 ⟨fun _ => hinv, fun st hst => ?_⟩
  have hkeep : ∀ st', Gathers st st' → Handshake.Inv env s₀ { h with state := some st' } := fun st' hs =>
    ⟨fun st'' hs' => by cases hs'; exact (hinv.gathers st hst).trans hs, hinv.done⟩
  exact wp_mono (fun a st' h => ⟨hkeep st' h.1, rfl, h.2⟩) (fun _ st' h => hkeep st' h) (hp st)

theorem wp_onStream_flush (hinv : h.Inv env s₀) :
    wp (onStream (flushNetOut env)) (fun _ h' => h'.Inv env s₀ ∧ h'.handshakeDone = h.handshakeDone ∧ True)
      (fun _ h' => h'.Inv env s₀) h :=
  wp_onStream (fun s => wp_mono (fun _ _ h => ⟨h, trivial⟩) (fun _ _ h => h) (wp_flush_gathers env s)) hinv

theorem wp_onStream_fill (rt : Runtime) (hinv : h.Inv env s₀) :
    wp (onStream (fillNetIn env rt)) (fun _ h' => h'.Inv env s₀ ∧ h'.handshakeDone = h.handshakeDone ∧ True)
      (fun _ h' => h'.Inv env s₀) h :=
  wp_onStream (fun s => wp_mono (fun _ _ h => ⟨h.gathers, trivial⟩) (fun _ _ h => h) (wp_fillNetIn env rt s)) hinv

theorem wp_sslHandshake (env : Env) (s : TlsStream) :
    wp (sslHandshake env) (fun r s' => Gathers s s' ∧ ∃ log, (env.sslHandshake log).ret = r)
      (fun _ s' => Gathers s s') s := by
  simp only [sslHandshake, wp_bind, wp_get, wp_modify, wp_pure]
  exact ⟨⟨_, .silent rfl rfl rfl⟩, s.log, rfl⟩

theorem wp_handOver (hinv : h.Inv env s₀) (hdone : h.handshakeDone = true) :
    wp (handOver env) (passes (Handshake.Inv env s₀) fun r h' => h'.Inv env s₀ ∧ r.Sound env s₀)
      (fun _ h' => h'.Inv env s₀) h := by
  simp only [handOver, wp_bind]
  refine wp_mono (fun r h' hr => ?_) (fun _ _ h => h) (wp_onStream_flush hinv)
  cases r with
  | pending => exact ⟨hr.1, trivial⟩
  | err e => exact ⟨hr.1, trivial⟩
  | ok u =>
    obtain ⟨hi, hd, -⟩ := hr
    have hsucc := hi.done (hd.trans hdone)
    simp only [wp_bind, wp_get]
    cases hst : h'.state with
    | none => exact hi
    | some st =>
      simp only [wp_bind, wp_modify, wp_pure]
      exact ⟨⟨fun _ h => (by cases h), hi.done⟩, hi.gathers st hst, hsucc⟩

/-- **One pass of the handshake loop keeps the invariant.** -/
theorem wp_handshakePass (rt : Runtime) (func : String) (hinv : h.Inv env s₀) :
    wp (handshakePass env rt func) (passes (Handshake.Inv env s₀) fun r h' => h'.Inv env s₀ ∧ r.Sound env s₀)
      (fun _ h' => h'.Inv env s₀) h := by
  simp only [handshakePass, wp_bind, wp_get]
  split
  · rename_i hd
    exact wp_handOver hinv hd
  · simp only [wp_bind]
    refine wp_mono (fun r h' hr => ?_) (fun _ _ h => h) (wp_onStream (wp_sslHandshake env) hinv)
    obtain ⟨hi, -, log, hlog⟩ := hr
    split
    · rename_i hs
      simp only [wp_bind, wp_modify]
      exact wp_handOver ⟨hi.gathers, fun _ => ⟨log, by rw [hlog, hs]⟩⟩ rfl
    · split
      · exact ⟨hi, trivial⟩
      · simp only [wp_bind]
        refine wp_mono (fun r' h'' hr' => ?_) (fun _ _ h => h) (wp_onStream_flush hi)
        cases r' with
        | pending => exact ⟨hr'.1, trivial⟩
        | err e => exact ⟨hr'.1, trivial⟩
        | ok u =>
          simp only
          split
          · simp only [wp_bind]
            refine wp_mono (fun r'' _ hf => ?_) (fun _ _ h => h) (wp_onStream_fill rt hr'.1)
            cases r'' with
            | pending => exact ⟨hf.1, trivial⟩
            | err e => exact ⟨hf.1, trivial⟩
            | ok u' => exact hf.1
          · exact hr'.1

theorem wp_handshakePoll (rt : Runtime) (func : String) (n : Nat) (hinv : h.Inv env s₀) :
    wp (handshakePoll env rt func n) (fun r h' => h'.Inv env s₀ ∧ r.Sound env s₀) (fun _ h' => h'.Inv env s₀) h :=
  wp_loop (I := Handshake.Inv env s₀) (E := fun _ => Handshake.Inv env s₀) (fun _ hm => wp_handshakePass rt func hm)
    (fun _ hm => hm) n h hinv

end Invariant

/-- **A stream handed over stands for a handshake wolfSSL reported as done**, however often the future was polled. -/
theorem pollUntilReady_sound (env : Env) (rt : Runtime) (func : String) (n : Nat) (s₀ : TlsStream) :
    ∀ (k : Nat) (h : Handshake) (r : Handed), h.Inv env s₀ →
      pollUntilReady (handshakePoll env rt func n) k h = some r → r.Sound env s₀
  | 0, _, _, _, hr => by cases hr
  | k + 1, h, r, hinv, hr => by
    have hwp := wp_handshakePoll rt func n hinv
    rw [pollUntilReady] at hr
    cases hrun : (handshakePoll env rt func n).run h with
    | error e h' => rw [hrun] at hr; cases hr
    | ok r' h' =>
      rw [hrun] at hr
      obtain ⟨hi, hs⟩ := wp_ok hwp hrun
      cases r' with
      | pending => exact pollUntilReady_sound env rt func n s₀ k h' r hi hr
      | ok st => cases hr; exact hs
      | err e => cases hr; exact hs

end Tls
end Wolf
