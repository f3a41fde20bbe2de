import WolfsslRs.Lockstep
import WolfsslRs.Rust
import WolfsslRs.TlsRead
import WolfsslRs.TlsStream
/-!
# TlsCrates — the two streams as each crate writes them

wolfcrypt-tls-tokio and wolfcrypt-tls-futures-io are one stream written twice, against two runtimes that hand out and take
back bytes differently: tokio's reads fill a `ReadBuf`, those of futures-io a slice, and report a count.  Here each crate's
`fill_net_in` and `poll_read` are as the crate has them, on its own buffers; what the two have word for word (flushing,
writing but for the refill, shutting down) is that of `TlsStream`.  Each crate goes in lockstep with the stream of
`TlsStream`, and so the two with each other (`crates_lockstep`).
-/
namespace Wolf
namespace Tls

open Program (loop)
open Rust

/-- How the loop over the records is left, with the value `poll_read` returns. -/
inductive Left (ρ : Type) where
  | broke
  | returned (r : ρ)

/-- A panic is one of the ways a poll stops. -/
def orPanic {α : Type} : Option α → Task α
  | some a => return a
  | none => throw .panicked

/-- The refill of `poll_read`, only if `netIn` is empty. -/
def refillWith (fill : Task (Poll Unit)) : Task (Poll Unit) := do
  if (← get).net.netIn = [] then fill
  else return .ok ()

/-- `poll_write`'s loop, around the refill of the crate. -/
def writePassWith (env : Env) (fill : Task (Poll Unit)) (buf : Bytes) : Task (Option (Poll Nat)) := do
  let r ← sslWrite env (buf.take i32Max)
  if 0 < r.ret then
    let _ ← flushNetOut env
    return some (.ok r.ret.toNat)
  else if r.err = wantWrite then
    match ← flushNetOut env with
    | .pending => return some .pending
    | .err e => return some (.err e)
    | .ok () => return none
  else if r.err = wantRead then
    match ← fill with
    | .pending => return some .pending
    | .err e => return some (.err e)
    | .ok () => return none
  else return some (.err (wolfsslError env "wolfSSL_write" r.err))

def pollWriteWith (env : Env) (fill : Task (Poll Unit)) (buf : Bytes) (n : Nat) : Task (Poll Nat) :=
  if buf = [] then return .ok 0
  else loop (writePassWith env fill buf) .running n

/-! ## tokio -/

namespace TokioCrate

/-- tokio's `ReadBuf`: the bytes filled in, and how many there may be. -/
structure ReadBuf where
  capacity : Nat
  filled : Bytes
  fits : filled.length ≤ capacity

def ReadBuf.uninit (capacity : Nat) : ReadBuf := ⟨capacity, [], Nat.zero_le _⟩

def ReadBuf.remaining (b : ReadBuf) : Nat := b.capacity - b.filled.length

/-- `put_slice`, which panics where there is no room. -/
def ReadBuf.putSlice (b : ReadBuf) (src : Bytes) : Option ReadBuf :=
  if h : b.filled.length + src.length ≤ b.capacity then
    some ⟨b.capacity, b.filled ++ src, by rw [List.length_append]; exact h⟩
  else none

/-- The spare capacity of `net_in` after `reserve(READ_CHUNK)`, as the allocator leaves it. -/
structure Allocator where
  spareCapacity : TlsStream → Nat
  reserved : ∀ s, readChunk ≤ spareCapacity s

section Polls

variable (env : Env) (allocator : Allocator)

/-- The transport fills a `ReadBuf` over the spare capacity; `advance_mut` then makes its bytes part of `net_in`. -/
def fillNetIn : Task (Poll Unit) := do
  let s ← get
  let readBuf := ReadBuf.uninit (allocator.spareCapacity s)
  let r := env.ioRead s.log
  modify (TlsStream.record (.ioRead r))
  match r with
  | .pending => return .pending
  | .err e => return .err e
  | .ok d =>
    let readBuf ← orPanic (readBuf.putSlice d)
    let n := readBuf.filled.length
    if n = 0 then return .err ⟨.unexpectedEof, "peer closed the connection"⟩
    else
      modify (fun s => { s with net.netIn := s.net.netIn ++ readBuf.filled.take n })
      return .ok ()

def deliver (buf : ReadBuf) : Task (Poll Unit × ReadBuf) := do
  let s ← get
  let n := min buf.remaining s.readBuf.length
  let buf ← orPanic (buf.putSlice (s.readBuf.take n))
  modify (fun s => { s with readBuf := s.readBuf.drop n })
  return (.ok (), buf)

def readPass (buf : ReadBuf) : Task (Option (Left (Poll Unit × ReadBuf))) := do
  let netInBefore := (← get).net.netIn.length
  match ← sslRead env with
  | .block p =>
    modify (fun s => { s with readBuf := s.readBuf ++ p.bytes })
    let _ ← flushNetOut env
    return none
  | .closed =>
    if (← get).readBuf = [] then return some (.returned (.ok (), buf))
    else return some (.returned (← deliver buf))
  | .failed err =>
    if err = wantRead then
      let netInAfter := (← get).net.netIn.length
      if 0 < netInBefore ∧ netInAfter = netInBefore then
        match ← fillNetIn env allocator with
        | .pending => return some (.returned (.pending, buf))
        | .err e => return some (.returned (.err e, buf))
        | .ok () => return none
      else return some .broke
    else if err = wantWrite then
      match ← flushNetOut env with
      | .pending => return some (.returned (.pending, buf))
      | .err e => return some (.returned (.err e, buf))
      | .ok () => return some .broke
    else return some (.returned (.err (wolfsslError env "wolfSSL_read" err), buf))

def pollPass (buf : ReadBuf) (n : Nat) : Task (Option (Poll Unit × ReadBuf)) := do
  if (← get).readBuf = [] then
    match ← refillWith (fillNetIn env allocator) with
    | .pending => return some (.pending, buf)
    | .err e => return some (.err e, buf)
    | .ok () =>
      match ← loop (readPass env allocator buf) .running n with
      | .returned r => return some r
      | .broke =>
        if (← get).readBuf = [] then return none
        else return some (← deliver buf)
  else return some (← deliver buf)

def pollRead (buf : ReadBuf) (n : Nat) : Task (Poll Unit × ReadBuf) := loop (pollPass env allocator buf n) .running n

def pollWrite (buf : Bytes) (n : Nat) : Task (Poll Nat) := pollWriteWith env (fillNetIn env allocator) buf n

end Polls

inductive Call where
  | read (buf : ReadBuf)
  | write (buf : Bytes)
  | flush
  | shutdown

inductive Answer where
  | read (r : Poll Unit × ReadBuf)
  | write (r : Poll Nat)
  | flush (r : Poll Unit)
  | shutdown (r : Poll Unit)

def Call.poll (env : Env) (allocator : Allocator) (n : Nat) : Call → Task Answer
  | .read buf => Answer.read <$> pollRead env allocator buf n
  | .write buf => Answer.write <$> pollWrite env allocator buf n
  | .flush => Answer.flush <$> pollFlush env
  | .shutdown => Answer.shutdown <$> pollShutdown env

end TokioCrate

/-! ## futures-io -/

namespace FuturesIoCrate

section Polls

variable (env : Env)

/-- The transport fills the front of a buffer of `READ_CHUNK` bytes and reports how many; a count beyond it panics. -/
def fillNetIn : Task (Poll Unit) := do
  let s ← get
  let tmp : Bytes := List.replicate readChunk 0
  let r := env.ioRead s.log
  modify (TlsStream.record (.ioRead r))
  match r with
  | .pending => return .pending
  | .err e => return .err e
  | .ok d =>
    let tmp := splice tmp 0 (d.take readChunk)
    let n := d.length
    if n = 0 then return .err ⟨.unexpectedEof, "peer closed the connection"⟩
    else
      let bytes ← orPanic (upTo tmp n)
      modify (fun s => { s with net.netIn := s.net.netIn ++ bytes })
      return .ok ()

def deliver (buf : Bytes) : Task (Poll Nat × Bytes) := do
  let s ← get
  let n := min buf.length s.readBuf.length
  let src ← orPanic (upTo s.readBuf n)
  let buf ← orPanic (copyFromSlice buf 0 n src)
  modify (fun s => { s with readBuf := s.readBuf.drop n })
  return (.ok n, buf)

def readPass (buf : Bytes) : Task (Option (Left (Poll Nat × Bytes))) := do
  let netInBefore := (← get).net.netIn.length
  match ← sslRead env with
  | .block p =>
    modify (fun s => { s with readBuf := s.readBuf ++ p.bytes })
    let _ ← flushNetOut env
    return none
  | .closed =>
    if (← get).readBuf = [] then return some (.returned (.ok 0, buf))
    else return some (.returned (← deliver buf))
  | .failed err =>
    if err = wantRead then
      let netInAfter := (← get).net.netIn.length
      if 0 < netInBefore ∧ netInAfter = netInBefore then
        match ← fillNetIn env with
        | .pending => return some (.returned (.pending, buf))
        | .err e => return some (.returned (.err e, buf))
        | .ok () => return none
      else return some .broke
    else if err = wantWrite then
      match ← flushNetOut env with
      | .pending => return some (.returned (.pending, buf))
      | .err e => return some (.returned (.err e, buf))
      | .ok () => return some .broke
    else return some (.returned (.err (wolfsslError env "wolfSSL_read" err), buf))

def pollPass (buf : Bytes) (n : Nat) : Task (Option (Poll Nat × Bytes)) := do
  if (← get).readBuf = [] then
    match ← refillWith (fillNetIn env) with
    | .pending => return some (.pending, buf)
    | .err e => return some (.err e, buf)
    | .ok () =>
      match ← loop (readPass env buf) .running n with
      | .returned r => return some r
      | .broke =>
        if (← get).readBuf = [] then return none
        else return some (← deliver buf)
  else return some (← deliver buf)

def pollRead (buf : Bytes) (n : Nat) : Task (Poll Nat × Bytes) :=
  if buf = [] then return (.ok 0, buf)
  else loop (pollPass env buf n) .running n

def pollWrite (buf : Bytes) (n : Nat) : Task (Poll Nat) := pollWriteWith env (fillNetIn env) buf n

end Polls

inductive Call where
  | read (buf : Bytes)
  | write (buf : Bytes)
  | flush
  | close

inductive Answer where
  | read (r : Poll Nat × Bytes)
  | write (r : Poll Nat)
  | flush (r : Poll Unit)
  | close (r : Poll Unit)

def Call.poll (env : Env) (n : Nat) : Call → Task Answer
  | .read buf => Answer.read <$> pollRead env buf n
  | .write buf => Answer.write <$> pollWrite env buf n
  | .flush => Answer.flush <$> pollFlush env
  | .close => Answer.close <$> pollShutdown env

end FuturesIoCrate

/-! ## The refills -/

section Refill

variable {env : Env}

/-- No read of the transport delivers more than a chunk. -/
def Env.Chunked (env : Env) : Prop := ∀ log d, env.ioRead log = .ok d → d.length ≤ readChunk

theorem orPanic_some_bind {α β : Type} (a : α) (k : α → Task β) : (orPanic (some a) >>= k) = k a := rfl

theorem fillNetIn_runtime (h : env.Chunked) : fillNetIn env .tokio = fillNetIn env .futuresIo := by
  unfold fillNetIn
  refine bind_congr fun s => ?_
  generalize hr : env.ioRead s.log = r
  refine bind_congr fun _ => ?_
  cases r with
  | pending => rfl
  | err e => rfl
  | ok d =>
    cases d with
    | nil => rfl
    | cons b d =>
      have haccepts : Runtime.futuresIo.accepts (b :: d).length = true := decide_eq_true (h _ _ hr)
      simp only [haccepts]
      rfl

/-- Within a chunk, what the transport puts in the spare capacity is what it delivers. -/
theorem TokioCrate.fillNetIn_eq (allocator : Allocator) (h : env.Chunked) :
    fillNetIn env allocator = Tls.fillNetIn env .tokio := by
  unfold fillNetIn Tls.fillNetIn
  refine bind_congr fun s => ?_
  generalize hr : env.ioRead s.log = r
  refine bind_congr fun _ => ?_
  cases r with
  | pending => rfl
  | err e => rfl
  | ok d =>
    have hroom : ([] : Bytes).length + d.length ≤ allocator.spareCapacity s := by
      have hchunk := h _ _ hr
      have hreserved := allocator.reserved s
      rw [List.length_nil]
      omega
    have hput : ∃ fits, (ReadBuf.uninit (allocator.spareCapacity s)).putSlice d =
        some ⟨allocator.spareCapacity s, d, fits⟩ := ⟨_, dif_pos hroom⟩
    obtain ⟨fits, hput⟩ := hput
    simp only [hput, orPanic_some_bind, List.take_length]
    cases d with
    | nil => rfl
    | cons b d => rfl

theorem FuturesIoCrate.fillNetIn_eq (env : Env) : fillNetIn env = Tls.fillNetIn env .futuresIo := by
  unfold fillNetIn Tls.fillNetIn
  refine bind_congr fun s => ?_
  generalize env.ioRead s.log = r
  refine bind_congr fun _ => ?_
  cases r with
  | pending => rfl
  | err e => rfl
  | ok d =>
    cases d with
    | nil => rfl
    | cons b d =>
      have hlen : (splice (List.replicate readChunk 0) 0 ((b :: d).take readChunk)).length = readChunk := by
        rw [length_splice]
        · exact List.length_replicate
        · rw [List.length_replicate, List.length_take]
          omega
      by_cases hfits : (b :: d).length ≤ readChunk
      · have hall : (b :: d).take readChunk = b :: d := List.take_of_length_le hfits
        have haccepts : Runtime.futuresIo.accepts (b :: d).length = true := decide_eq_true hfits
        have hbytes : upTo (splice (List.replicate readChunk 0) 0 ((b :: d).take readChunk)) (b :: d).length =
            some (b :: d) := by
          rw [upTo_of_le (by rw [hlen]; exact hfits), hall, take_splice_zero]
        simp only [hbytes, haccepts]
        rfl
      · have haccepts : Runtime.futuresIo.accepts (b :: d).length = false := decide_eq_false hfits
        have hbytes : upTo (splice (List.replicate readChunk 0) 0 ((b :: d).take readChunk)) (b :: d).length = none :=
          if_neg (by rw [hlen]; exact hfits)
        simp only [hbytes, haccepts]
        rfl

end Refill

/-! ## The text the crates share -/

section Shape

variable {ρ : Type} (env : Env) (fill : Task (Poll Unit)) (deliver : Task ρ) (early : Poll Unit → ρ)

/-- A pass around `wolfSSL_read`, up to the refill, what delivers plaintext, and what is returned without any. -/
def readPassWith : Task (Option (Left ρ)) := do
  let netInBefore := (← get).net.netIn.length
  match ← sslRead env with
  | .block p =>
    modify (fun s => { s with readBuf := s.readBuf ++ p.bytes })
    let _ ← flushNetOut env
    return none
  | .closed =>
    if (← get).readBuf = [] then return some (.returned (early (.ok ())))
    else return some (.returned (← deliver))
  | .failed err =>
    if err = wantRead then
      let netInAfter := (← get).net.netIn.length
      if 0 < netInBefore ∧ netInAfter = netInBefore then
        match ← fill with
        | .pending => return some (.returned (early .pending))
        | .err e => return some (.returned (early (.err e)))
        | .ok () => return none
      else return some .broke
    else if err = wantWrite then
      match ← flushNetOut env with
      | .pending => return some (.returned (early .pending))
      | .err e => return some (.returned (early (.err e)))
      | .ok () => return some .broke
    else return some (.returned (early (.err (wolfsslError env "wolfSSL_read" err))))

def pollPassWith (n : Nat) : Task (Option ρ) := do
  if (← get).readBuf = [] then
    match ← refillWith fill with
    | .pending => return some (early .pending)
    | .err e => return some (early (.err e))
    | .ok () =>
      match ← loop (readPassWith env fill deliver early) .running n with
      | .returned r => return some r
      | .broke =>
        if (← get).readBuf = [] then return none
        else return some (← deliver)
  else return some (← deliver)

end Shape

theorem TokioCrate.readPass_eq (env : Env) (allocator : Allocator) (buf : ReadBuf) :
    readPass env allocator buf = readPassWith env (fillNetIn env allocator) (deliver buf) (fun p => (p, buf)) := rfl

theorem TokioCrate.pollPass_eq (env : Env) (allocator : Allocator) (buf : ReadBuf) (n : Nat) :
    pollPass env allocator buf n =
      pollPassWith env (fillNetIn env allocator) (deliver buf) (fun p => (p, buf)) n := by
  unfold pollPass pollPassWith
  rw [readPass_eq]
  refine bind_congr fun s => ?_
  congr 1
  refine bind_congr fun r => ?_
  cases r with
  | pending => rfl
  | err e => rfl
  | ok a =>
    refine bind_congr fun l => ?_
    cases l with
    | returned r => rfl
    | broke => rfl

/-- What futures-io returns where there are no bytes to hand over. -/
def FuturesIoCrate.early (buf : Bytes) : Poll Unit → Poll Nat × Bytes
  | .pending => (.pending, buf)
  | .err e => (.err e, buf)
  | .ok () => (.ok 0, buf)

theorem FuturesIoCrate.readPass_eq (env : Env) (buf : Bytes) :
    readPass env buf = readPassWith env (fillNetIn env) (deliver buf) (early buf) := rfl

theorem FuturesIoCrate.pollPass_eq (env : Env) (buf : Bytes) (n : Nat) :
    pollPass env buf n = pollPassWith env (fillNetIn env) (deliver buf) (early buf) n := by
  unfold pollPass pollPassWith
  rw [readPass_eq]
  refine bind_congr fun s => ?_
  congr 1
  refine bind_congr fun r => ?_
  cases r with
  | pending => rfl
  | err e => rfl
  | ok a =>
    refine bind_congr fun l => ?_
    cases l with
    | returned r => rfl
    | broke => rfl

/-! ## Lockstep -/

open Program

section Shape

variable {ρ : Type} {env : Env} {rt : Runtime} {deliver : Task ρ} {early : Poll Unit → ρ} {R : Poll Bytes → ρ → Prop}

/-- How the loop over the records is left, in the stream and in a crate. -/
inductive SameLeave (R : Poll Bytes → ρ → Prop) : Leave → Left ρ → Prop
  | broke : SameLeave R .broke .broke
  | returned {r : Poll Bytes} {x : ρ} (h : R r x) : SameLeave R (.returned r) (.returned x)

/-- What a crate returns where there are no bytes, as the stream does. -/
structure Early (R : Poll Bytes → ρ → Prop) (early : Poll Unit → ρ) : Prop where
  pending : R .pending (early .pending)
  err : ∀ e, R (.err e) (early (.err e))
  ok : R (.ok []) (early (.ok ()))

theorem lockstep_readPassWith {cap : Nat} (hdeliver : Lockstep R (Tls.deliver cap) deliver) (hearly : Early R early) :
    Lockstep (Option.Rel (SameLeave R)) (readPass env rt cap) (readPassWith env (fillNetIn env rt) deliver early) := by
  have hpoll : ∀ (p : Task (Poll Unit)) {k : Task (Option Leave)} {l : Task (Option (Left ρ))},
      Lockstep (Option.Rel (SameLeave R)) k l →
      Lockstep (Option.Rel (SameLeave R))
        (do match ← p with
            | .pending => return some (.returned .pending)
            | .err e => return some (.returned (.err e))
            | .ok () => k)
        (do match ← p with
            | .pending => return some (.returned (early .pending))
            | .err e => return some (.returned (early (.err e)))
            | .ok () => l) := by
    intro p k l hkl
    refine lockstep_after p fun r => ?_
    cases r with
    | pending => exact lockstep_pure (.some (.returned hearly.pending))
    | err e => exact lockstep_pure (.some (.returned (hearly.err e)))
    | ok a => exact hkl
  refine lockstep_after _ fun s => lockstep_after _ fun ret => ?_
  cases ret with
  | block p => exact lockstep_after _ fun _ => lockstep_after _ fun _ => lockstep_pure .none
  | closed =>
    refine lockstep_after _ fun s => lockstep_ite (fun _ => ?_) fun _ => ?_
    · exact lockstep_pure (.some (.returned hearly.ok))
    · exact lockstep_bind hdeliver fun r x h => lockstep_pure (.some (.returned h))
  | failed err =>
    refine lockstep_ite (fun _ => ?_) fun _ => lockstep_ite (fun _ => ?_) fun _ => ?_
    · exact lockstep_after _ fun t => lockstep_ite (fun _ => hpoll _ (lockstep_pure .none)) fun _ =>
        lockstep_pure (.some .broke)
    · exact hpoll _ (lockstep_pure (.some .broke))
    · exact lockstep_pure (.some (.returned (hearly.err _)))

theorem lockstep_pollPassWith {cap : Nat} (hdeliver : Lockstep R (Tls.deliver cap) deliver) (hearly : Early R early)
    (n : Nat) : Lockstep (Option.Rel R) (pollPass env rt cap n)
      (pollPassWith env (fillNetIn env rt) deliver early n) := by
  have hall : Lockstep (Option.Rel R) (do return some (← Tls.deliver cap)) (do return some (← deliver)) :=
    lockstep_bind hdeliver fun r x h => lockstep_pure (.some h)
  refine lockstep_after _ fun s => lockstep_ite (fun _ => ?_) fun _ => hall
  refine lockstep_after _ fun r => ?_
  cases r with
  | pending => exact lockstep_pure (.some hearly.pending)
  | err e => exact lockstep_pure (.some (hearly.err e))
  | ok a =>
    refine lockstep_bind (lockstep_loop (lockstep_readPassWith hdeliver hearly) n) fun l l' hl => ?_
    cases hl with
    | returned h => exact lockstep_pure (.some h)
    | broke => exact lockstep_after _ fun s => lockstep_ite (fun _ => lockstep_pure .none) fun _ => hall

end Shape

/-! ### The bytes handed over -/

/-- What a caller of the tokio stream gets for an answer of the stream: the bytes behind those in the buffer. -/
def TokioCrate.Handed (before : ReadBuf) : Poll Bytes → Poll Unit × ReadBuf → Prop
  | .pending, x => x = (.pending, before)
  | .err e, x => x = (.err e, before)
  | .ok d, x => x.1 = .ok () ∧ x.2.capacity = before.capacity ∧ x.2.filled = before.filled ++ d

/-- What a caller of the futures-io stream gets: the bytes at the front of the slice, and how many they are. -/
def FuturesIoCrate.Handed (slice : Bytes) : Poll Bytes → Poll Nat × Bytes → Prop
  | .pending, x => x = (.pending, slice)
  | .err e, x => x = (.err e, slice)
  | .ok d, x => d.length ≤ slice.length ∧ x = (.ok d.length, d ++ slice.drop d.length)

theorem TokioCrate.lockstep_deliver (buf : ReadBuf) :
    Lockstep (Handed buf) (Tls.deliver buf.remaining) (deliver buf) := by
  refine lockstep_after _ fun s => ?_
  have hroom : buf.filled.length + (s.readBuf.take (min buf.remaining s.readBuf.length)).length ≤ buf.capacity := by
    have hfits := buf.fits
    rw [List.length_take, ReadBuf.remaining]
    omega
  dsimp only [ReadBuf.putSlice]
  rw [dif_pos hroom, orPanic_some_bind]
  exact lockstep_after _ fun _ => lockstep_pure ⟨rfl, rfl, rfl⟩

theorem FuturesIoCrate.lockstep_deliver (buf : Bytes) :
    Lockstep (Handed buf) (Tls.deliver buf.length) (deliver buf) := by
  refine lockstep_after _ fun s => ?_
  have hle : min buf.length s.readBuf.length ≤ buf.length := Nat.min_le_left _ _
  have hlen : (s.readBuf.take (min buf.length s.readBuf.length)).length = min buf.length s.readBuf.length := by
    rw [List.length_take]
    omega
  dsimp only
  rw [upTo_of_le (Nat.min_le_right _ _), orPanic_some_bind, copyFromSlice_of (by rw [hlen, Nat.zero_add]) hle,
    orPanic_some_bind, splice_zero]
  exact lockstep_after _ fun _ => lockstep_pure ⟨Nat.le_trans (Nat.le_of_eq hlen) hle, by rw [hlen]⟩

theorem TokioCrate.early_handed (buf : ReadBuf) : Early (Handed buf) (fun p => (p, buf)) where
  pending := rfl
  err _ := rfl
  ok := ⟨rfl, rfl, (List.append_nil _).symm⟩

theorem FuturesIoCrate.early_handed (buf : Bytes) : Early (Handed buf) (early buf) where
  pending := rfl
  err _ := rfl
  ok := ⟨Nat.zero_le _, rfl⟩

/-- **The tokio stream goes as the stream of the abstract model.** -/
theorem TokioCrate.lockstep_pollRead {env : Env} (allocator : Allocator) (h : env.Chunked) (buf : ReadBuf) (n : Nat) :
    Lockstep (Handed buf) (Tokio.pollRead env buf.remaining n) (pollRead env allocator buf n) := by
  refine lockstep_loop ?_ n
  rw [pollPass_eq, fillNetIn_eq allocator h]
  exact lockstep_pollPassWith (lockstep_deliver buf) (early_handed buf) n

/-- **So does the futures-io stream**, whatever its transport does. -/
theorem FuturesIoCrate.lockstep_pollRead (env : Env) (buf : Bytes) (n : Nat) :
    Lockstep (Handed buf) (FuturesIo.pollRead env buf.length n) (pollRead env buf n) := by
  unfold FuturesIo.pollRead pollRead
  by_cases hbuf : buf = []
  · rw [if_pos (by rw [hbuf]; rfl), if_pos hbuf]
    exact lockstep_pure ⟨Nat.zero_le _, rfl⟩
  · rw [if_neg (mt List.length_eq_zero_iff.mp hbuf), if_neg hbuf]
    refine lockstep_loop ?_ n
    rw [pollPass_eq, fillNetIn_eq]
    exact lockstep_pollPassWith (lockstep_deliver buf) (early_handed buf) n

theorem pollWrite_runtime {env : Env} (h : env.Chunked) (allocator : TokioCrate.Allocator) (buf : Bytes) (n : Nat) :
    TokioCrate.pollWrite env allocator buf n = FuturesIoCrate.pollWrite env buf n := by
  unfold TokioCrate.pollWrite FuturesIoCrate.pollWrite
  rw [TokioCrate.fillNetIn_eq allocator h, FuturesIoCrate.fillNetIn_eq, fillNetIn_runtime h]

/-! ### The two crates -/

/-- What both crates are asked for: to read into room for as many bytes, not for none, or to write the same ones. -/
inductive SameCall : TokioCrate.Call → FuturesIoCrate.Call → Prop
  | read {buf : TokioCrate.ReadBuf} {slice : Bytes} (hroom : buf.remaining = slice.length) (hne : slice ≠ []) :
    SameCall (.read buf) (.read slice)
  | write (buf : Bytes) : SameCall (.write buf) (.write buf)
  | flush : SameCall .flush .flush
  | shutdown : SameCall .shutdown .close

/-- What both crates answer: the same bytes, `Pending` or error, each in its own terms. -/
inductive SameAnswer : TokioCrate.Call → FuturesIoCrate.Call → TokioCrate.Answer → FuturesIoCrate.Answer → Prop
  | read {buf : TokioCrate.ReadBuf} {slice : Bytes} {x : Poll Unit × TokioCrate.ReadBuf} {y : Poll Nat × Bytes}
    (r : Poll Bytes) (htokio : TokioCrate.Handed buf r x) (hfutures : FuturesIoCrate.Handed slice r y) :
    SameAnswer (.read buf) (.read slice) (.read x) (.read y)
  | write {buf : Bytes} (r : Poll Nat) : SameAnswer (.write buf) (.write buf) (.write r) (.write r)
  | flush (r : Poll Unit) : SameAnswer .flush .flush (.flush r) (.flush r)
  | shutdown (r : Poll Unit) : SameAnswer .shutdown .close (.shutdown r) (.close r)

section Crates

variable {env : Env} (h : env.Chunked) (allocator : TokioCrate.Allocator) (n : Nat)
include h

theorem pollRead_runtime {cap : Nat} (hcap : cap ≠ 0) : Tokio.pollRead env cap n = FuturesIo.pollRead env cap n := by
  unfold FuturesIo.pollRead
  rw [if_neg hcap]
  unfold Tokio.pollRead pollReadLoop pollPass readPass refill
  rw [fillNetIn_runtime h]

theorem lockstep_poll {c : TokioCrate.Call} {d : FuturesIoCrate.Call} (hcd : SameCall c d) :
    Lockstep (SameAnswer c d) (c.poll env allocator n) (d.poll env n) := by
  cases hcd with
  | @read buf slice hroom hne =>
    have hread := TokioCrate.lockstep_pollRead allocator h buf n
    rw [hroom, pollRead_runtime h n (mt List.length_eq_zero_iff.mp hne)] at hread
    refine lockstep_map (lockstep_common hread (FuturesIoCrate.lockstep_pollRead env slice n)) ?_
    rintro x y ⟨r, htokio, hfutures⟩
    exact .read r htokio hfutures
  | write buf =>
    rw [TokioCrate.Call.poll, pollWrite_runtime h]
    exact lockstep_map_same _ .write
  | flush => exact lockstep_map_same _ .flush
  | shutdown => exact lockstep_map_same _ .shutdown

end Crates

/-- **The two streams go in lockstep** through any calls with buffers that are not empty, over any transport whose reads
deliver at most a chunk and any wolfSSL session: after every call both have had the same exchanges with their environment
and hold the same bytes, and each call gives the same answer. -/
theorem crates_lockstep (env : Env) (h : env.Chunked) (allocator : TokioCrate.Allocator) (n : Nat)
    (cs : List TokioCrate.Call) (ds : List FuturesIoCrate.Call) (hcs : List.Forall₂ SameCall cs ds) (s : TlsStream) :
    SameCalls SameAnswer (calls (TokioCrate.Call.poll env allocator n) cs s)
      (calls (FuturesIoCrate.Call.poll env n) ds s) :=
  lockstep_calls (C := SameCall) (fun _ _ => lockstep_poll h allocator n) hcs s

/-- A peer that sends one record and takes what it is sent. -/
def oneRecord : Env where
  ioRead log := if log = [] then .ok [23, 3] else .pending
  ioWrite _ buf := .ok buf.length
  ioShutdown _ := .ok ()
  sslRead log := if log.length = 1 then ⟨[.recv 2], .block hello⟩ else ⟨[], .failed wantRead⟩
  sslWrite _ buf := ⟨[.send buf], ⟨buf.length, 0⟩⟩
  sslShutdown _ := ⟨[.send [21]], ⟨1, 0⟩⟩
  sslHandshake _ := ⟨[], ⟨1, 0⟩⟩
  errorString _ := ""

def tightAllocator : TokioCrate.Allocator := ⟨fun _ => readChunk, fun _ => Nat.le_refl _⟩

theorem oneRecord_chunked : oneRecord.Chunked := by
  intro log d hd
  by_cases hlog : log = []
  · have hsent : Poll.ok [23, 3] = Poll.ok d := by simpa only [oneRecord, if_pos hlog] using hd
    cases hsent
    decide
  · simp only [oneRecord, if_neg hlog, reduceCtorEq] at hd

theorem crates_lockstep_oneRecord :
    (calls (TokioCrate.Call.poll oneRecord tightAllocator 3)
        [.read (.uninit 1), .read (.uninit 4), .read (.uninit 4), .write [7], .flush, .shutdown] newStream).stop =
      none ∧
    SameCalls SameAnswer
      (calls (TokioCrate.Call.poll oneRecord tightAllocator 3)
        [.read (.uninit 1), .read (.uninit 4), .read (.uninit 4), .write [7], .flush, .shutdown] newStream)
      (calls (FuturesIoCrate.Call.poll oneRecord 3)
        [.read [0], .read [0, 0, 0, 0], .read [0, 0, 0, 0], .write [7], .flush, .close] newStream) := by
  refine ⟨by decide, crates_lockstep oneRecord oneRecord_chunked tightAllocator 3 _ _ ?_ _⟩
  exact .cons (.read rfl (by decide)) (.cons (.read rfl (by decide)) (.cons (.read rfl (by decide))
    (.cons (.write _) (.cons .flush (.cons .shutdown .nil)))))

end Tls
end Wolf
