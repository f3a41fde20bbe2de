import WolfsslRs.TlsStream
/-!
# TlsRead — the plaintext of a stream, accounted for

Every poll accounts for the plaintext that passes through it: what it delivers, followed by what it leaves in `readBuf`,
is what was there followed by the blocks `wolfSSL_read` returned in its course.  A poll is refused exactly when the last
answer of its environment is a refusal, so the plaintext a refused read leaves behind is read off the answers.
-/
namespace Wolf
namespace Tls

open Program

/-! ## Plaintext and refusals in a history -/

def Event.plaintext : Event → Bytes
  | .sslRead _ (.block p) => p.bytes
  | _ => []

/-- **The blocks `wolfSSL_read` returned**, in order. -/
def plaintext (ev : List Event) : Bytes := ev.flatMap Event.plaintext

/-- The answers that end a poll without a result: a transport that is not ready, fails, has nothing more to give or
takes nothing, and an error of `wolfSSL_read` other than that it wants to read or write. -/
def Event.refuses : Event → Bool
  | .ioRead .pending | .ioRead (.err _) | .ioRead (.ok []) => true
  | .ioWrite _ .pending | .ioWrite _ (.err _) | .ioWrite _ (.ok 0) => true
  | .sslRead _ (.failed err) => decide (err ≠ wantRead ∧ err ≠ wantWrite)
  | _ => false

def endsRefused (ev : List Event) : Bool := ev.getLast?.any Event.refuses

/-- `Pending` or an error. -/
def Poll.refused {α : Type} : Poll α → Bool
  | .ok _ => false
  | _ => true

/-- The bytes a read hands to its caller. -/
def Poll.bytes : Poll Bytes → Bytes
  | .ok d => d
  | _ => []

theorem plaintext_append (u v : List Event) : plaintext (u ++ v) = plaintext u ++ plaintext v := List.flatMap_append

theorem endsRefused_append {u v : List Event} (h : endsRefused u = false ∨ v ≠ []) :
    endsRefused (u ++ v) = endsRefused v := by
  unfold endsRefused at h ⊢
  rw [List.getLast?_append]
  cases hv : v.getLast? with
  | some e => rfl
  | none =>
    rcases h with h | h
    · rwa [Option.none_or]
    · exact absurd (List.getLast?_eq_none_iff.1 hv) h

/-! ## Accounting -/

/-- **From `s` to `s'` the environment answered `ev` and `d` was delivered**, no byte of plaintext being lost, doubled or
moved. -/
structure Accounts (d : Bytes) (s s' : TlsStream) (ev : List Event) : Prop where
  log : s'.log = s.log ++ ev
  buf : d ++ s'.readBuf = s.readBuf ++ plaintext ev

theorem Accounts.refl (s : TlsStream) : Accounts [] s s [] := ⟨(List.append_nil _).symm, (List.append_nil _).symm⟩

theorem Accounts.trans {d : Bytes} {s m s' : TlsStream} {u v : List Event} (h : Accounts [] s m u)
    (h' : Accounts d m s' v) : Accounts d s s' (u ++ v) := by
  refine ⟨by rw [h'.log, h.log, List.append_assoc], ?_⟩
  have hm : m.readBuf = s.readBuf ++ plaintext u := h.buf
  rw [h'.buf, hm, plaintext_append, List.append_assoc]

theorem Accounts.event {s s' : TlsStream} {e : Event} (hlog : s'.log = s.log ++ [e])
    (hbuf : s'.readBuf = s.readBuf ++ e.plaintext) : Accounts [] s s' [e] :=
  ⟨hlog, by rw [List.nil_append, hbuf, plaintext, List.flatMap_singleton]⟩

theorem Accounts.silent {s s' : TlsStream} {e : Event} (hlog : s'.log = s.log ++ [e]) (hbuf : s'.readBuf = s.readBuf)
    (he : e.plaintext = []) : Accounts [] s s' [e] :=
  .event hlog (by rw [he, hbuf, List.append_nil])

/-- What has been answered so far accounts for the state, whatever comes of the call. -/
def Gathers (s s' : TlsStream) : Prop := ∃ ev, Accounts [] s s' ev

theorem Gathers.refl (s : TlsStream) : Gathers s s := ⟨[], .refl s⟩

theorem Gathers.trans {s m s' : TlsStream} (h : Gathers s m) (h' : Gathers m s') : Gathers s s' := by
  obtain ⟨u, hu⟩ := h
  obtain ⟨v, hv⟩ := h'
  exact ⟨u ++ v, hu.trans hv⟩

/-- A poll answered: the answers account for it, and it is refused exactly if the last of them is. -/
def Answers (d : Bytes) (refused : Bool) (s s' : TlsStream) : Prop :=
  ∃ ev, Accounts d s s' ev ∧ endsRefused ev = refused

theorem Answers.gathers {b : Bool} {s s' : TlsStream} (h : Answers [] b s s') : Gathers s s' := by
  obtain ⟨ev, h, -⟩ := h
  exact ⟨ev, h⟩

theorem Answers.trans {d : Bytes} {b : Bool} {s m s' : TlsStream} (h : Answers [] false s m) (h' : Answers d b m s') :
    Answers d b s s' := by
  obtain ⟨u, hu, hu'⟩ := h
  obtain ⟨v, hv, hv'⟩ := h'
  exact ⟨u ++ v, hu.trans hv, by rw [endsRefused_append (.inl hu'), hv']⟩

theorem Gathers.asked {s m : TlsStream} {ret : ReadRet} (h : Gathers s m) (cb : List Callback)
    (hret : (Event.sslRead cb ret).plaintext = []) :
    Answers [] (Event.sslRead cb ret).refuses s (m.ran cb (.sslRead cb ret)) := by
  obtain ⟨u, hu⟩ := h
  exact ⟨_, hu.trans (.silent rfl rfl hret), endsRefused_append (.inr (List.cons_ne_nil _ _))⟩

/-! ## A rule for reads -/

/-- What is to hold after a refill or a flush within a read: `J` if it is done, and of its answer, the read's own, if not. -/
def Poll.Done (J : TlsStream → Prop) (Q : Poll Bytes → TlsStream → Prop) : Poll Unit → TlsStream → Prop
  | .ok _ => J
  | .pending => Q .pending
  | .err e => Q (.err e)

def Leave.Done (I : TlsStream → Prop) (Q : Poll Bytes → TlsStream → Prop) : Leave → TlsStream → Prop
  | .broke => I
  | .returned r => Q r

/-- **What a property of reads has to be shown for**: `I` holds between the passes of the outer loop, `J` between those
around `wolfSSL_read`, `Q` of what is returned, and `E` where nothing is. -/
structure ReadRule (env : Env) (rt : Runtime) (cap : Nat) (I J : TlsStream → Prop) (Q : Poll Bytes → TlsStream → Prop)
    (E : Stop → TlsStream → Prop) : Prop where
  inner : ∀ {m}, I m → J m
  out : ∀ {m}, J m → E .running m
  fill : ∀ {m}, I m → wp (fillNetIn env rt) (Poll.Done I Q) E m
  deliver : ∀ {m}, I m → m.readBuf ≠ [] → wp (deliver cap) Q E m
  block : ∀ {m cb p}, J m → env.sslRead m.log = ⟨cb, .block p⟩ → wp (flushNetOut env) (fun _ => J) E
    { m.ran cb (.sslRead cb (.block p)) with readBuf := m.readBuf ++ p.bytes }
  closed : ∀ {m cb}, J m → env.sslRead m.log = ⟨cb, .closed⟩ → m.readBuf = [] →
    Q (.ok []) (m.ran cb (.sslRead cb .closed))
  rest : ∀ {m cb}, J m → env.sslRead m.log = ⟨cb, .closed⟩ → m.readBuf ≠ [] →
    wp (Tls.deliver cap) Q E (m.ran cb (.sslRead cb .closed))
  wantsRead : ∀ {m cb}, J m → env.sslRead m.log = ⟨cb, .failed wantRead⟩ → I (m.ran cb (.sslRead cb (.failed wantRead)))
  wantsWrite : ∀ {m cb}, J m → env.sslRead m.log = ⟨cb, .failed wantWrite⟩ →
    wp (flushNetOut env) (Poll.Done I Q) E (m.ran cb (.sslRead cb (.failed wantWrite)))
  failed : ∀ {m cb err}, J m → env.sslRead m.log = ⟨cb, .failed err⟩ → err ≠ wantRead → err ≠ wantWrite →
    Q (.err (wolfsslError env "wolfSSL_read" err)) (m.ran cb (.sslRead cb (.failed err)))

namespace ReadRule

variable {env : Env} {rt : Runtime} {cap n : Nat} {I J : TlsStream → Prop} {Q : Poll Bytes → TlsStream → Prop}
  {E : Stop → TlsStream → Prop} {m : TlsStream}

theorem readPass (h : ReadRule env rt cap I J Q E) (hm : J m) :
    wp (readPass env rt cap) (passes J (Leave.Done I Q)) E m := by
  simp only [Tls.readPass, sslRead, wp_bind, wp_get, wp_modify, wp_pure]
  cases hr : env.sslRead m.log with
  | mk cb ret =>
    cases ret with
    | block p =>
      simp only [wp_bind, wp_modify]
      exact h.block hm hr
    | closed =>
      simp only [wp_bind, wp_get]
      split
      · exact h.closed hm hr ‹_›
      · simp only [wp_bind]
        exact h.rest hm hr ‹_›
    | failed err =>
      simp only
      split
      · rename_i hread
        subst hread
        simp only [wp_bind, wp_get]
        split
        · simp only [wp_bind]
          refine wp_mono (fun r s' hdone => ?_) (fun _ _ h => h) (h.fill (h.wantsRead hm hr))
          cases r with
          | ok u => exact h.inner hdone
          | _ => exact hdone
        · exact h.wantsRead hm hr
      · split
        · rename_i hwrite
          subst hwrite
          simp only [wp_bind]
          refine wp_mono (fun r s' hdone => ?_) (fun _ _ h => h) (h.wantsWrite hm hr)
          cases r <;> exact hdone
        · exact h.failed hm hr ‹_› ‹_›

theorem pollPass (h : ReadRule env rt cap I J Q E) (hm : I m) : wp (pollPass env rt cap n) (passes I Q) E m := by
  have hrefill : wp (refill env rt) (Poll.Done I Q) E m := by
    simp only [refill, wp_bind, wp_get]
    split
    · exact h.fill hm
    · exact hm
  simp only [Tls.pollPass, wp_bind, wp_get]
  split
  · simp only [wp_bind]
    refine wp_mono (fun r m' hdone => ?_) (fun _ _ h => h) hrefill
    cases r with
    | pending => exact hdone
    | err e => exact hdone
    | ok u =>
      simp only [wp_bind]
      refine wp_mono (fun l m'' hleave => ?_) (fun _ _ h => h)
        (wp_loop (fun _ => h.readPass) (fun _ => h.out) n m' (h.inner hdone))
      cases l with
      | returned r => exact hleave
      | broke =>
        simp only [wp_bind, wp_get]
        split
        · exact hleave
        · simp only [wp_bind]
          exact h.deliver hleave ‹_›
  · simp only [wp_bind]
    exact h.deliver hm ‹_›

/-- **The rule.** -/
theorem pollReadLoop (h : ReadRule env rt cap I J Q E) (n : Nat) (hm : I m) : wp (pollReadLoop env rt cap n) Q E m :=
  wp_loop (fun _ => h.pollPass) (fun _ hm => h.out (h.inner hm)) n m hm

/-- A futures-io stream does not begin where there is no room. -/
theorem pollRead (h : ReadRule env rt cap I J Q E) (n : Nat) (hm : I m) (hnone : Q (.ok []) m) :
    wp (rt.pollRead env cap n) Q E m := by
  cases rt with
  | tokio => exact h.pollReadLoop n hm
  | futuresIo =>
    simp only [Runtime.pollRead, FuturesIo.pollRead]
    split
    · exact hnone
    · exact h.pollReadLoop n hm

end ReadRule

/-! ## The parts of a poll -/

section Parts

variable (env : Env) (rt : Runtime)

theorem wp_fillNetIn (s : TlsStream) :
    wp (fillNetIn env rt) (fun r s' => Answers [] r.refused s s') (fun _ s' => Gathers s s') s := by
  simp only [fillNetIn, wp_bind, wp_get, wp_modify]
  generalize env.ioRead s.log = r
  cases r with
  | pending => exact ⟨_, .silent rfl rfl rfl, rfl⟩
  | err e => exact ⟨_, .silent rfl rfl rfl, rfl⟩
  | ok d =>
    cases d with
    | nil => exact ⟨_, .silent rfl rfl rfl, rfl⟩
    | cons b d =>
      simp only
      split
      · exact ⟨[.ioRead (.ok (b :: d))], .silent rfl rfl rfl, rfl⟩
      · exact ⟨_, .silent rfl rfl rfl⟩

theorem wp_flushLoop : ∀ (k : Nat) (s : TlsStream),
    wp (flushLoop env k) (fun r s' => Answers [] r.refused s s') (fun _ s' => Gathers s s') s
  | 0, s => ⟨[], .refl s, rfl⟩
  | k + 1, s => by
    simp only [flushLoop, wp_bind, wp_get]
    split
    · exact ⟨[], .refl s, rfl⟩
    · simp only [wp_bind, wp_modify]
      generalize env.ioWrite s.log s.net.netOut = r
      cases r with
      | pending => exact ⟨_, .silent rfl rfl rfl, rfl⟩
      | err e => exact ⟨_, .silent rfl rfl rfl, rfl⟩
      | ok n =>
        cases n with
        | zero => exact ⟨_, .silent rfl rfl rfl, rfl⟩
        | succ n =>
          simp only
          split
          · simp only [wp_bind, wp_modify]
            refine wp_mono (fun r s' h => ?_) (fun e s' h => ?_) (wp_flushLoop k _)
            · refine Answers.trans ?_ h
              exact ⟨[.ioWrite s.net.netOut (.ok (n + 1))], .silent rfl rfl rfl, rfl⟩
            · refine Gathers.trans ?_ h
              exact ⟨[.ioWrite s.net.netOut (.ok (n + 1))], .silent rfl rfl rfl⟩
          · exact ⟨_, .silent rfl rfl rfl⟩

theorem wp_flushNetOut (s : TlsStream) :
    wp (flushNetOut env) (fun r s' => Answers [] r.refused s s') (fun _ s' => Gathers s s') s := by
  simp only [flushNetOut, wp_bind, wp_get]
  exact wp_flushLoop env _ s

theorem wp_deliver (cap : Nat) (s : TlsStream) {E : Stop → TlsStream → Prop} :
    wp (deliver cap) (fun r s' => Accounts r.bytes s s' [] ∧ r.refused = false) E s := by
  simp only [deliver, wp_bind, wp_get, wp_modify, wp_pure]
  refine ⟨⟨(List.append_nil _).symm, ?_⟩, rfl⟩
  show s.readBuf.take _ ++ s.readBuf.drop _ = s.readBuf ++ []
  rw [List.take_append_drop, List.append_nil]

/-- The parts of a read account for what they gather; an answer of `wolfSSL_read` is refused exactly if it is the last. -/
theorem readRule (cap : Nat) (s : TlsStream) : ReadRule env rt cap (Answers [] false s) (Gathers s)
    (fun r => Answers r.bytes r.refused s) (fun _ => Gathers s) where
  inner := Answers.gathers
  out := id
  fill hm := by
    refine wp_mono (fun r s' h => ?_) (fun _ _ h => hm.gathers.trans h) (wp_fillNetIn env rt _)
    cases r <;> exact hm.trans h
  deliver hm _ := wp_mono (fun _ _ h => hm.trans ⟨[], h.1, h.2.symm⟩) (fun _ _ h => h) (wp_deliver cap _)
  block {m cb p} hm _ := by
    have hm : Gathers s { m.ran cb (.sslRead cb (.block p)) with readBuf := m.readBuf ++ p.bytes } :=
      hm.trans ⟨[.sslRead cb (.block p)], .event rfl rfl⟩
    exact wp_mono (fun _ _ h => hm.trans h.gathers) (fun _ _ h => hm.trans h) (wp_flushNetOut env _)
  closed hm _ _ := hm.asked _ rfl
  rest {m cb} hm _ _ := by
    have hm : Answers [] false s (m.ran cb (.sslRead cb .closed)) := hm.asked _ rfl
    exact wp_mono (fun _ _ h => hm.trans ⟨[], h.1, h.2.symm⟩) (fun _ _ h => h) (wp_deliver cap _)
  wantsRead hm _ := hm.asked _ rfl
  wantsWrite {m cb} hm _ := by
    have hm : Answers [] false s (m.ran cb (.sslRead cb (.failed wantWrite))) := hm.asked _ rfl
    refine wp_mono (fun r s' h => ?_) (fun _ _ h => hm.gathers.trans h) (wp_flushNetOut env _)
    cases r <;> exact hm.trans h
  failed {m cb err} hm _ hread hwrite := by
    have hm : Answers [] (Event.sslRead cb (.failed err)).refuses s _ := hm.asked _ rfl
    rwa [show (Event.sslRead cb (.failed err)).refuses = true from decide_eq_true ⟨hread, hwrite⟩] at hm

/-- **A read accounts for its plaintext**, and is refused exactly if the last answer of its environment is. -/
theorem wp_pollRead (cap n : Nat) (s : TlsStream) :
    wp (rt.pollRead env cap n) (fun r s' => Answers r.bytes r.refused s s') (fun _ s' => Gathers s s') s :=
  (readRule env rt cap s).pollRead n ⟨[], .refl s, rfl⟩ ⟨[], .refl s, rfl⟩

/-! ## The other polls -/

theorem wp_flush_gathers (s : TlsStream) :
    wp (flushNetOut env) (fun _ s' => Gathers s s') (fun _ s' => Gathers s s') s :=
  wp_mono (fun _ _ h => h.gathers) (fun _ _ h => h) (wp_flushNetOut env s)

theorem wp_writePass (buf : Bytes) (s : TlsStream) :
    wp (writePass env rt buf) (fun _ s' => Gathers s s') (fun _ s' => Gathers s s') s := by
  simp only [writePass, sslWrite, wp_bind, wp_get, wp_modify, wp_pure]
  generalize env.sslWrite s.log (buf.take i32Max) = a
  obtain ⟨cb, ret⟩ := a
  have hgot : Gathers s (s.ran cb (.sslWrite (buf.take i32Max) cb ret)) := ⟨_, .silent rfl rfl rfl⟩
  have hflush := wp_mono (fun _ _ h => hgot.trans h) (fun _ _ h => hgot.trans h) (wp_flush_gathers env _)
  split
  · simp only [wp_bind]
    exact hflush
  · split
    · simp only [wp_bind]
      refine wp_mono (fun r s' h => ?_) (fun _ _ h => h) hflush
      cases r <;> exact h
    · split
      · simp only [wp_bind]
        refine wp_mono (fun r s' h => ?_) (fun _ _ h => hgot.trans h) (wp_fillNetIn env rt _)
        have h' := hgot.trans h.gathers
        cases r <;> exact h'
      · exact hgot

theorem wp_pollWrite (buf : Bytes) (n : Nat) (s : TlsStream) :
    wp (pollWrite env rt buf n) (fun _ s' => Gathers s s') (fun _ s' => Gathers s s') s := by
  unfold pollWrite
  split
  · exact .refl s
  · refine wp_loop (I := Gathers s) (E := fun _ => Gathers s) (fun m hm => ?_) (fun _ h => h) n s (.refl s)
    refine wp_mono (fun o s' h => ?_) (fun _ _ h => hm.trans h) (wp_writePass env rt buf m)
    cases o <;> exact hm.trans h

theorem wp_closeTransport (s : TlsStream) :
    wp (closeTransport env) (fun _ s' => Gathers s s') (fun _ s' => Gathers s s') s := by
  simp only [closeTransport, wp_bind]
  refine wp_mono (fun r s' h => ?_) (fun _ _ h => h) (wp_flush_gathers env s)
  cases r with
  | pending => exact h
  | err e => exact h
  | ok u =>
    simp only [wp_bind, wp_get, wp_modify, wp_pure]
    exact h.trans ⟨_, .silent rfl rfl rfl⟩

theorem wp_pollShutdown (s : TlsStream) :
    wp (pollShutdown env) (fun _ s' => Gathers s s') (fun _ s' => Gathers s s') s := by
  simp only [pollShutdown, sslShutdown, wp_bind, wp_get]
  split
  · exact wp_closeTransport env s
  · simp only [wp_bind, wp_get, wp_modify, wp_pure]
    generalize env.sslShutdown s.log = a
    obtain ⟨cb, ret⟩ := a
    have hgot : Gathers s { s.ran cb (.sslShutdown cb ret) with shutdownSent := true } := ⟨_, .silent rfl rfl rfl⟩
    split
    · exact hgot
    · exact wp_mono (fun _ _ h => hgot.trans h) (fun _ _ h => hgot.trans h) (wp_closeTransport env _)

end Parts

/-! ## Whole runs -/

def Returned.bytes : Returned → Bytes
  | .read r => r.bytes
  | _ => []

/-- **The bytes the reads of a run handed to the caller**, in order. -/
def delivered (rs : List Returned) : Bytes := rs.flatMap Returned.bytes

/-- **Each call of a run accounts for its plaintext.** -/
theorem wp_poll (env : Env) (rt : Runtime) (n : Nat) (c : Call) (s : TlsStream) :
    wp (c.poll env rt n) (fun r s' => ∃ ev, Accounts r.bytes s s' ev) (fun _ s' => Gathers s s') s := by
  cases c with
  | read cap =>
    refine wp_map.2 (wp_mono (fun r s' h => ?_) (fun _ _ h => h) (wp_pollRead env rt cap n s))
    obtain ⟨ev, h, -⟩ := h
    exact ⟨ev, h⟩
  | write buf => exact wp_map.2 (wp_pollWrite env rt buf n s)
  | flush => exact wp_map.2 (wp_flush_gathers env s)
  | shutdown => exact wp_map.2 (wp_pollShutdown env s)

theorem Accounts.deliver {d d' : Bytes} {s m s' : TlsStream} {u v : List Event} (h : Accounts d s m u)
    (h' : Accounts d' m s' v) : Accounts (d ++ d') s s' (u ++ v) := by
  refine ⟨by rw [h'.log, h.log, List.append_assoc], ?_⟩
  rw [List.append_assoc, h'.buf, ← List.append_assoc, h.buf, List.append_assoc, plaintext_append]

theorem run_accounts (env : Env) (rt : Runtime) (n : Nat) : ∀ (calls : List Call) (s : TlsStream),
    ∃ ev, Accounts (delivered (run env rt n calls s).returned) s (run env rt n calls s).stream ev
  | [], s => ⟨[], .refl s⟩
  | c :: calls, s => by
    have hc := wp_poll env rt n c s
    rw [run]
    cases hrun : (c.poll env rt n).run s with
    | error e s' => exact wp_error hc hrun
    | ok r s' =>
      obtain ⟨u, hu⟩ := wp_ok hc hrun
      obtain ⟨v, hv⟩ := run_accounts env rt n calls s'
      exact ⟨u ++ v, hu.deliver hv⟩

/-- **No decrypted byte is lost, doubled or reordered**: over any run of any stream of either runtime, whatever its
transport and wolfSSL answer, what was delivered followed by `readBuf` is what `readBuf` held at the start followed by
the blocks `wolfSSL_read` returned since; this also where a call is still at work or has panicked. -/
theorem delivered_append_readBuf (env : Env) (rt : Runtime) (n : Nat) (calls : List Call) (s : TlsStream) :
    ∃ ev, (run env rt n calls s).stream.log = s.log ++ ev ∧
      delivered (run env rt n calls s).returned ++ (run env rt n calls s).stream.readBuf =
        s.readBuf ++ plaintext ev := by
  obtain ⟨ev, h⟩ := run_accounts env rt n calls s
  exact ⟨ev, h.log, h.buf⟩

/-! ## What a refused read leaves behind -/

/-- An answer of `wolfSSL_read` that hands over plaintext. -/
def Event.handsOver : Event → Bool
  | .sslRead _ (.block _) => true
  | _ => false

theorem plaintext_ne_nil_iff (ev : List Event) : plaintext ev ≠ [] ↔ ev.any Event.handsOver = true := by
  have h : ∀ e : Event, e.plaintext ≠ [] ↔ e.handsOver = true := by
    intro e
    cases e with
    | sslRead cb r =>
      cases r with
      | block p => exact ⟨fun _ => rfl, fun _ => p.nonempty⟩
      | closed => exact ⟨fun h => absurd rfl h, fun h => by cases h⟩
      | failed err => exact ⟨fun h => absurd rfl h, fun h => by cases h⟩
    | _ => exact ⟨fun h => absurd rfl h, fun h => by cases h⟩
  rw [List.any_eq_true, ne_eq, plaintext, List.flatMap_eq_nil_iff]
  constructor
  · intro hne
    by_contra hall
    exact hne fun e he => Classical.byContradiction fun hp => hall ⟨e, he, (h e).1 hp⟩
  · rintro ⟨e, he, hp⟩ hall
    exact (h e).2 hp (hall e he)

theorem wp_pollReadLoop_buffered (env : Env) (rt : Runtime) (cap n : Nat) (s : TlsStream) (hs : s.readBuf ≠ []) :
    wp (pollReadLoop env rt cap n) (fun r _ => r = .ok (s.readBuf.take cap)) (fun _ _ => n = 0) s := by
  unfold pollReadLoop
  cases n with
  | zero => exact rfl
  | succ n =>
    simp only [loop, pollPass, wp_bind, wp_get]
    rw [if_neg hs]
    simp only [deliver, wp_bind, wp_get, wp_modify, wp_pure]
    rw [← List.take_take, List.take_length]

theorem readBuf_of_refused {env : Env} {rt : Runtime} {cap n : Nat} {s s' : TlsStream} {r : Poll Bytes}
    (h : (rt.pollRead env cap n).run s = .ok r s') (hr : r.refused = true) : s.readBuf = [] := by
  by_contra hs
  have hloop : ∀ rt', (pollReadLoop env rt' cap n).run s = .ok r s' → False := fun rt' h' => by
    rw [wp_ok (wp_pollReadLoop_buffered env rt' cap n s hs) h'] at hr
    cases hr
  cases rt with
  | tokio => exact hloop _ h
  | futuresIo =>
    simp only [Runtime.pollRead, FuturesIo.pollRead] at h
    split at h
    · cases h; cases hr
    · exact hloop _ h

/-- **When a read leaves no plaintext behind a refusal**: it returns `Pending` or an error with plaintext in `readBuf`
exactly when, in its course, `wolfSSL_read` handed over a block and the last answer was a refusal. -/
theorem refused_read_leaves_nothing_iff (env : Env) (rt : Runtime) (cap n : Nat) (s s' : TlsStream) (r : Poll Bytes)
    (h : (rt.pollRead env cap n).run s = .ok r s') :
    ∃ ev, s'.log = s.log ++ ev ∧
      (¬(r.refused = true ∧ s'.readBuf ≠ []) ↔ ¬(ev.any Event.handsOver = true ∧ endsRefused ev = true)) := by
  obtain ⟨ev, hacc, hend⟩ := wp_ok (wp_pollRead env rt cap n s) h
  refine ⟨ev, hacc.log, ?_⟩
  rw [hend, ← plaintext_ne_nil_iff]
  cases hr : r.refused with
  | false => simp
  | true =>
    have hbytes : r.bytes = [] := by cases r <;> first | rfl | cases hr
    have hbuf : s'.readBuf = plaintext ev := by
      have := hacc.buf
      rwa [hbytes, readBuf_of_refused h hr] at this
    rw [hbuf]
    exact ⟨fun hc hp => hc ⟨rfl, hp.1⟩, fun hc hp => hc ⟨hp.2, rfl⟩⟩

/-- The plaintext of a record. -/
def hello : Plaintext := ⟨[104, 105], by decide, by decide⟩

/-- A transport that delivers two records at once, the second of which does not authenticate. -/
def twoRecords : Env where
  ioRead _ := .ok (List.replicate 14 23)
  ioWrite _ buf := .ok buf.length
  ioShutdown _ := .ok ()
  sslRead log :=
    if log.any Event.handsOver then ⟨[.recv 5, .recv 2], .failed (-305)⟩
    else ⟨[.recv 5, .recv 2], .block hello⟩
  sslWrite _ buf := ⟨[.send buf], ⟨buf.length, 0⟩⟩
  sslShutdown _ := ⟨[], ⟨1, 0⟩⟩
  sslHandshake _ := ⟨[], ⟨1, 0⟩⟩
  errorString _ := "error state on socket"

def newStream : TlsStream := ⟨.new, [], false, []⟩

theorem refused_read_leaves_nothing_fatal :
    ∃ r s', (Runtime.tokio.pollRead twoRecords 16 2).run newStream = .ok r s' ∧
      ∃ ev, s'.log = newStream.log ++ ev ∧
        (¬(r.refused = true ∧ s'.readBuf ≠ []) ↔ ¬(ev.any Event.handsOver = true ∧ endsRefused ev = true)) :=
  ⟨_, _, rfl, refused_read_leaves_nothing_iff twoRecords .tokio 16 2 newStream _ _ rfl⟩

/-- Both streams report the failure of the second record while the plaintext of the first is still in `readBuf`. -/
theorem fatal_record_before_delivery :
    (∃ e s', (Tokio.pollRead twoRecords 16 2).run newStream = .ok (.err e) s' ∧ s'.readBuf = [104, 105]) ∧
      ∃ e s', (FuturesIo.pollRead twoRecords 16 2).run newStream = .ok (.err e) s' ∧ s'.readBuf = [104, 105] :=
  ⟨⟨_, _, rfl, rfl⟩, ⟨_, _, rfl, rfl⟩⟩

end Tls
end Wolf
