import WolfsslRs.Bytes
import WolfsslRs.Program
/-!
# TlsStream — the asynchronous TLS stream (wolfcrypt-tls-tokio, wolfcrypt-tls-futures-io)

The two crates hold one stream twice: `NetBuffers` between the transport and wolfSSL's callbacks, and the polls around
them.  The transport and wolfSSL are the environment: at each call it answers as a function of every call and answer so
far, so that a statement about every `Env` is about every transport and every wolfSSL.  A call that has not returned
after the passes followed of each of its loops stops as `running`; a slice or `advance` out of range stops as `panicked`.
-/
namespace Wolf
namespace Tls

open Program (loop)

inductive ErrorKind where
  | unexpectedEof | writeZero | other | wouldBlock | timedOut | connectionReset | interrupted | connectionAborted
  | unlisted (code : Nat)
  deriving DecidableEq, Repr

structure IoError where
  kind : ErrorKind
  message : String
  deriving DecidableEq, Repr

/-- `Poll<io::Result<T>>`: `Pending`, `Ready(Ok(a))`, `Ready(Err(e))`. -/
inductive Poll (α : Type) where
  | pending
  | ok (a : α)
  | err (e : IoError)
  deriving DecidableEq, Repr

/-! ## The bridge -/

inductive IOCallbackResult (α : Type) where
  | ok (a : α)
  | wouldBlock
  | err (e : IoError)
  deriving DecidableEq, Repr

structure NetBuffers where
  netIn : Bytes
  netOut : Bytes
  deriving DecidableEq, Repr

def NetBuffers.new : NetBuffers := ⟨[], []⟩

/-- The bytes placed in a buffer of `sz`, and the buffers after. -/
def NetBuffers.recv (b : NetBuffers) (sz : Nat) : IOCallbackResult Bytes × NetBuffers :=
  if b.netIn = [] then (.wouldBlock, b)
  else
    let n := min sz b.netIn.length
    (.ok (b.netIn.take n), { b with netIn := b.netIn.drop n })

def NetBuffers.send (b : NetBuffers) (buf : Bytes) : IOCallbackResult Nat × NetBuffers :=
  (.ok buf.length, { b with netOut := b.netOut ++ buf })

/-- A callback wolfSSL makes in the course of a call. -/
inductive Callback where
  | recv (sz : Nat)
  | send (buf : Bytes)
  deriving DecidableEq, Repr

def Callback.apply (b : NetBuffers) : Callback → NetBuffers
  | .recv sz => (b.recv sz).2
  | .send buf => (b.send buf).2

/-! ## The environment -/

/-- The length of the buffer `wolfSSL_read` fills, the largest plaintext of a record and one byte. -/
def tmpLen : Nat := 16385

/-- What `wolfSSL_read` puts in the buffer when it returns a positive count. -/
structure Plaintext where
  bytes : Bytes
  nonempty : bytes ≠ []
  fits : bytes.length ≤ tmpLen
  deriving DecidableEq, Repr

/-- `wolfSSL_read`: a positive count, zero, or a negative value with what `wolfSSL_get_error` says of it. -/
inductive ReadRet where
  | block (p : Plaintext)
  | closed
  | failed (err : Int)
  deriving DecidableEq, Repr

/-- The other wolfSSL calls: the value returned, and what `wolfSSL_get_error` says of it. -/
structure SslRet where
  ret : Int
  err : Int
  deriving DecidableEq, Repr

def wantRead : Int := 2
def wantWrite : Int := 3
def wolfsslSuccess : Int := 1

structure Reply (ρ : Type) where
  callbacks : List Callback
  ret : ρ

/-- A call of the environment with its answer. -/
inductive Event where
  | ioRead (r : Poll Bytes)
  | ioWrite (offered : Bytes) (r : Poll Nat)
  | ioShutdown (r : Poll Unit)
  | sslRead (callbacks : List Callback) (r : ReadRet)
  | sslWrite (buf : Bytes) (callbacks : List Callback) (r : SslRet)
  | sslShutdown (callbacks : List Callback) (r : SslRet)
  | sslHandshake (callbacks : List Callback) (r : SslRet)
  deriving DecidableEq, Repr

/-- **A transport and a wolfSSL session**: what each call is answered after what has happened so far. -/
structure Env where
  ioRead : List Event → Poll Bytes
  ioWrite : List Event → Bytes → Poll Nat
  ioShutdown : List Event → Poll Unit
  sslRead : List Event → Reply ReadRet
  sslWrite : List Event → Bytes → Reply SslRet
  sslShutdown : List Event → Reply SslRet
  sslHandshake : List Event → Reply SslRet
  errorString : Int → String

/-! ## The stream -/

/-- The stream's buffers; `log` is not the source's but the history its environment answers from. -/
structure TlsStream where
  net : NetBuffers
  readBuf : Bytes
  shutdownSent : Bool
  log : List Event
  deriving DecidableEq, Repr

/-- Why a call is seen not to return: a loop still at work after the passes followed, or a panic. -/
inductive Stop where
  | running
  | panicked
  deriving DecidableEq, Repr

abbrev Task := EStateM Stop TlsStream

def TlsStream.record (e : Event) (s : TlsStream) : TlsStream := { s with log := s.log ++ [e] }

/-- A wolfSSL call: its callbacks work on the network buffers. -/
def TlsStream.ran (callbacks : List Callback) (e : Event) (s : TlsStream) : TlsStream :=
  { s.record e with net := callbacks.foldl Callback.apply s.net }

/-- The two asynchronous runtimes the stream is written for. -/
inductive Runtime where
  | tokio
  | futuresIo
  deriving DecidableEq, Repr

def readChunk : Nat := 4096

/-- Whether a count the transport reports fits the buffer handed to it: tokio's `ReadBuf` cannot report more than it
holds, the count of a futures-io transport indexes an array of `readChunk` bytes. -/
def Runtime.accepts : Runtime → Nat → Bool
  | .tokio, _ => true
  | .futuresIo, n => decide (n ≤ readChunk)

section Polls

variable (env : Env) (rt : Runtime)

def sslRead : Task ReadRet := do
  let a := env.sslRead (← get).log
  modify (TlsStream.ran a.callbacks (.sslRead a.callbacks a.ret))
  return a.ret

def sslWrite (buf : Bytes) : Task SslRet := do
  let a := env.sslWrite (← get).log buf
  modify (TlsStream.ran a.callbacks (.sslWrite buf a.callbacks a.ret))
  return a.ret

def sslShutdown : Task SslRet := do
  let a := env.sslShutdown (← get).log
  modify (TlsStream.ran a.callbacks (.sslShutdown a.callbacks a.ret))
  return a.ret

def sslHandshake : Task SslRet := do
  let a := env.sslHandshake (← get).log
  modify (TlsStream.ran a.callbacks (.sslHandshake a.callbacks a.ret))
  return a.ret

def wolfsslError (func : String) (err : Int) : IoError :=
  ⟨.other, s!"{func} error {err}: {env.errorString err}"⟩

def fillNetIn : Task (Poll Unit) := do
  let r := env.ioRead (← get).log
  modify (TlsStream.record (.ioRead r))
  match r with
  | .pending => return .pending
  | .err e => return .err e
  | .ok [] => return .err ⟨.unexpectedEof, "peer closed the connection"⟩
  | .ok (b :: d) =>
    if rt.accepts (b :: d).length then
      modify (fun s => { s with net.netIn := s.net.netIn ++ b :: d })
      return .ok ()
    else throw .panicked

/-- At most `k` passes: each that does not return takes at least one byte out of `netOut`. -/
def flushLoop : Nat → Task (Poll Unit)
  | 0 => return .ok ()
  | k + 1 => do
    let s ← get
    if s.net.netOut = [] then return .ok ()
    else
      let r := env.ioWrite s.log s.net.netOut
      modify (TlsStream.record (.ioWrite s.net.netOut r))
      match r with
      | .pending => return .pending
      | .err e => return .err e
      | .ok 0 => return .err ⟨.writeZero, "underlying IO accepted zero bytes"⟩
      | .ok (n + 1) =>
        if n + 1 ≤ s.net.netOut.length then
          modify (fun s => { s with net.netOut := s.net.netOut.drop (n + 1) })
          flushLoop k
        else throw .panicked

def flushNetOut : Task (Poll Unit) := do
  flushLoop env (← get).net.netOut.length

/-- Hand the caller, whose buffer has room for `cap` bytes, what has been decrypted. -/
def deliver (cap : Nat) : Task (Poll Bytes) := do
  let s ← get
  let n := min cap s.readBuf.length
  modify (fun s => { s with readBuf := s.readBuf.drop n })
  return .ok (s.readBuf.take n)

/-- How the loop over the records is left: by `break`, or with the value `poll_read` returns. -/
inductive Leave where
  | broke
  | returned (r : Poll Bytes)
  deriving DecidableEq, Repr

/-- One pass of the loop around `wolfSSL_read`; `none` is `continue`. -/
def readPass (cap : Nat) : Task (Option Leave) := do
  let netInBefore := (← get).net.netIn.length
  match ← sslRead env with
  | .block p =>
    modify (fun s => { s with readBuf := s.readBuf ++ p.bytes })
    let _ ← flushNetOut env
    return none
  | .closed =>
    if (← get).readBuf = [] then return some (.returned (.ok []))
    else return some (.returned (← deliver cap))
  | .failed err =>
    if err = wantRead then
      let netInAfter := (← get).net.netIn.length
      if 0 < netInBefore ∧ netInAfter = netInBefore then
        match ← fillNetIn env rt with
        | .pending => return some (.returned .pending)
        | .err e => return some (.returned (.err e))
        | .ok () => return none
      else return some .broke
    else if err = wantWrite then
      match ← flushNetOut env with
      | .pending => return some (.returned .pending)
      | .err e => return some (.returned (.err e))
      | .ok () => return some .broke
    else return some (.returned (.err (wolfsslError env "wolfSSL_read" err)))

/-- Refill from the network, but only if `netIn` is empty. -/
def refill : Task (Poll Unit) := do
  if (← get).net.netIn = [] then fillNetIn env rt
  else return .ok ()

/-- One pass of the outer loop, `n` passes of the inner one being followed; `none` goes round again. -/
def pollPass (cap n : Nat) : Task (Option (Poll Bytes)) := do
  if (← get).readBuf = [] then
    match ← refill env rt with
    | .pending => return some .pending
    | .err e => return some (.err e)
    | .ok () =>
      match ← loop (readPass env rt cap) .running n with
      | .returned r => return some r
      | .broke =>
        if (← get).readBuf = [] then return none
        else return some (← deliver cap)
  else return some (← deliver cap)

def pollReadLoop (cap n : Nat) : Task (Poll Bytes) := loop (pollPass env rt cap n) .running n

/-- `i32::MAX`. -/
def i32Max : Nat := 2147483647

def writePass (buf : Bytes) : Task (Option (Poll Nat)) := do
  let r ← sslWrite env (buf.take i32Max)
  if 0 < r.ret then
    let _ ← flushNetOut env
    return some (.ok r.ret.toNat)
  else if r.err = wantWrite then
    match ← flushNetOut env with
    | .pending => return some .pending
    | .err e => return some (.err e)
    | .ok () => return none
  else if r.err = wantRead then
    match ← fillNetIn env rt with
    | .pending => return some .pending
    | .err e => return some (.err e)
    | .ok () => return none
  else return some (.err (wolfsslError env "wolfSSL_write" r.err))

def pollWrite (buf : Bytes) (n : Nat) : Task (Poll Nat) :=
  if buf = [] then return .ok 0
  else loop (writePass env rt buf) .running n

def pollFlush : Task (Poll Unit) := flushNetOut env

/-- The end of a shutdown: the close_notify goes to the wire, then the transport is shut down. -/
def closeTransport : Task (Poll Unit) := do
  match ← flushNetOut env with
  | .pending => return .pending
  | .err e => return .err e
  | .ok () =>
    let r := env.ioShutdown (← get).log
    modify (TlsStream.record (.ioShutdown r))
    return r

/-- `poll_shutdown` of the tokio stream, `poll_close` of the futures-io stream. -/
def pollShutdown : Task (Poll Unit) := do
  if (← get).shutdownSent then closeTransport env
  else
    let r ← sslShutdown env
    modify (fun s => { s with shutdownSent := true })
    if r.ret < 0 ∧ r.err ≠ wantRead ∧ r.err ≠ wantWrite then
      return .err (wolfsslError env "wolfSSL_shutdown" r.err)
    else closeTransport env

end Polls

namespace Tokio

/-- `cap` is `buf.remaining()`; the bytes put in the `ReadBuf` are the answer. -/
def pollRead (env : Env) (cap n : Nat) : Task (Poll Bytes) := pollReadLoop env .tokio cap n

end Tokio

namespace FuturesIo

def pollRead (env : Env) (cap n : Nat) : Task (Poll Bytes) :=
  if cap = 0 then return .ok []
  else pollReadLoop env .futuresIo cap n

end FuturesIo

def Runtime.pollRead (env : Env) (cap n : Nat) : Runtime → Task (Poll Bytes)
  | .tokio => Tokio.pollRead env cap n
  | .futuresIo => FuturesIo.pollRead env cap n

/-! ## Runs -/

inductive Call where
  | read (cap : Nat)
  | write (buf : Bytes)
  | flush
  | shutdown
  deriving DecidableEq, Repr

inductive Returned where
  | read (r : Poll Bytes)
  | write (r : Poll Nat)
  | flush (r : Poll Unit)
  | shutdown (r : Poll Unit)
  deriving DecidableEq, Repr

def Call.poll (env : Env) (rt : Runtime) (n : Nat) : Call → Task Returned
  | .read cap => Returned.read <$> rt.pollRead env cap n
  | .write buf => Returned.write <$> pollWrite env rt buf n
  | .flush => Returned.flush <$> pollFlush env
  | .shutdown => Returned.shutdown <$> pollShutdown env

/-- What the calls of a run returned, the stream they left, and why the last did not return, if it did not. -/
structure Run where
  returned : List Returned
  stream : TlsStream
  stop : Option Stop
  deriving DecidableEq, Repr

def run (env : Env) (rt : Runtime) (n : Nat) : List Call → TlsStream → Run
  | [], s => ⟨[], s, none⟩
  | c :: cs, s =>
    match (c.poll env rt n).run s with
    | .error e s' => ⟨[], s', some e⟩
    | .ok r s' =>
      let t := run env rt n cs s'
      { t with returned := r :: t.returned }

end Tls
end Wolf
