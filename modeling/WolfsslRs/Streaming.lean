import WolfsslRs.CMemory
import WolfsslRs.Program
import WolfsslRs.Trace
import Mathlib.Data.List.TakeDrop
/-!
# Streaming — the streaming decryption keys of wolfcrypt-ring-compat

A key hands the ciphertext to wolfSSL's EVP layer piece by piece and the plaintext to the caller in buffers of the
caller's size.  What EVP produces goes through a scratch buffer; what does not fit into the caller's goes into an
overflow buffer, out of which the next call is served first.  EVP is a parameter: what it answers, and how much of the
plaintext it holds back, is its own affair here.
-/
namespace Wolf
namespace Streaming

open Program

inductive AlgorithmId where
  | aes128 | aes192 | aes256
  deriving DecidableEq, Repr

inductive OperatingMode where
  | cbc | ctr | cfb128 | ecb
  deriving DecidableEq, Repr

structure Algorithm where
  id : AlgorithmId
  keyLen : Nat
  blockLen : Nat
  deriving DecidableEq, Repr

def aes128 : Algorithm := ⟨.aes128, 16, 16⟩
def aes192 : Algorithm := ⟨.aes192, 24, 16⟩
def aes256 : Algorithm := ⟨.aes256, 32, 16⟩

structure UnboundCipherKey where
  algorithm : Algorithm
  keyBytes : Bytes
  deriving DecidableEq, Repr

/-- How a call is left without a result: by `Unspecified`, or at a slice out of range. -/
inductive Stop where
  | unspecified | panicked
  deriving DecidableEq, Repr

/-! ## EVP -/

/-- What `EVP_DecryptUpdate` and `EVP_DecryptFinal_ex` return, and the bytes they write from the start of their buffer. -/
structure Answer where
  ret : Int
  outlen : Int
  out : Bytes
  deriving DecidableEq, Repr

/-- The zeroed scratch buffer of `n` bytes after the call. -/
def Answer.tmp (a : Answer) (n : Nat) : Bytes := (a.out ++ List.replicate n 0).take n

/-- **What EVP produced** in a scratch buffer of `n` bytes. -/
def Answer.produced (a : Answer) (n : Nat) : Bytes := (a.tmp n).take a.outlen.toNat

/-- **The EVP layer**, over contexts of its own, once a context has been set up. -/
structure Evp (κ : Type) where
  decryptUpdate : κ → (input : Bytes) → Answer × κ
  decryptFinal : κ → Answer

/-! ## The key -/

structure BufferUpdate where
  written : Bytes
  remainder : Bytes
  deriving DecidableEq, Repr

def BufferUpdate.new (outBuffer : Bytes) (writtenLen : Nat) : BufferUpdate :=
  ⟨outBuffer.take writtenLen, outBuffer.drop writtenLen⟩

/-- `StreamingDecryptingKey`. -/
structure DecryptingKey (κ : Type) where
  algorithm : Algorithm
  mode : OperatingMode
  cipherCtx : κ
  outputGenerated : Nat
  overflowBuf : Bytes
  deriving DecidableEq, Repr

section Key

variable {κ : Type} (evp : Evp κ)

/-- The overflow buffer drained into the output: the output, the bytes of it written and the overflow buffer after it. -/
def drainOverflow (overflowBuf output : Bytes) : Bytes × Nat × Bytes :=
  if overflowBuf ≠ [] then
    let drainLen := min overflowBuf.length output.length
    (splice output 0 (overflowBuf.take drainLen), drainLen, overflowBuf.drop drainLen)
  else (output, 0, overflowBuf)

def usizeMax : Nat := 2 ^ 64 - 1

def i32Max : Nat := 2 ^ 31 - 1

/-- The size of the scratch buffer of an update. -/
def DecryptingKey.maxEvpOut (k : DecryptingKey κ) (input : Bytes) : Nat := input.length + 2 * k.algorithm.blockLen

def updateInternal (input output : Bytes) (minOutsize : Nat) : EStateM Stop (DecryptingKey κ) BufferUpdate := do
  if output.length < minOutsize then throw .unspecified
  else
    let k ← get
    let (output, written, overflowBuf) := drainOverflow k.overflowBuf output
    modify ({ · with overflowBuf := overflowBuf })
    if i32Max < input.length then throw .unspecified
    else
      let (a, cipherCtx) := evp.decryptUpdate k.cipherCtx input
      modify ({ · with cipherCtx := cipherCtx })
      if a.ret ≠ 1 then throw .unspecified
      else if a.outlen < 0 then throw .unspecified
      else
        let tmp := a.tmp (k.maxEvpOut input)
        let evpOutlen := a.outlen.toNat
        let copyLen := min evpOutlen (output.length - written)
        -- `tmp[..copy_len]` and `tmp[copy_len..evp_outlen]`
        if tmp.length < evpOutlen then throw .panicked
        else
          let output := splice output written (tmp.take copyLen)
          let written := written + copyLen
          modify fun k => { k with
            overflowBuf := if copyLen < evpOutlen then k.overflowBuf ++ slice tmp copyLen (evpOutlen - copyLen)
              else k.overflowBuf
            outputGenerated := k.outputGenerated + written }
          return .new output written

def update (input output : Bytes) : EStateM Stop (DecryptingKey κ) BufferUpdate := do
  let k ← get
  if usizeMax < input.length + k.algorithm.blockLen then throw .unspecified
  else if input.length + k.algorithm.blockLen < 1 then throw .unspecified
  else updateInternal evp input output (input.length + k.algorithm.blockLen - 1)

def lessSafeUpdate (input output : Bytes) : EStateM Stop (DecryptingKey κ) BufferUpdate := do
  let k ← get
  let nextTotal := k.outputGenerated + input.length
  if usizeMax < nextTotal then throw .unspecified
  else
    let extraBufferSize := (k.algorithm.blockLen - nextTotal % k.algorithm.blockLen) % k.algorithm.blockLen
    if usizeMax < input.length + extraBufferSize then throw .unspecified
    else updateInternal evp input output (input.length + extraBufferSize)

/-- The key is consumed. -/
def DecryptingKey.finish (k : DecryptingKey κ) (output : Bytes) : Except Stop BufferUpdate :=
  if output.length < k.algorithm.blockLen then .error .unspecified
  else
    let (output, written, _) := drainOverflow k.overflowBuf output
    let a := evp.decryptFinal k.cipherCtx
    if a.ret ≠ 1 then .error .unspecified
    else if a.outlen < 0 then .error .unspecified
    else
      let tmp := a.tmp (2 * k.algorithm.blockLen)
      let copyLen := min a.outlen.toNat (output.length - written)
      -- `tmp[..copy_len]`
      if tmp.length < copyLen then .error .panicked
      else .ok (.new (splice output written (tmp.take copyLen)) (written + copyLen))

end Key

/-! ## A stream of calls -/

inductive Call where
  | update (input output : Bytes)
  | lessSafeUpdate (input output : Bytes)
  deriving DecidableEq, Repr

def Call.input : Call → Bytes
  | update input _ => input
  | lessSafeUpdate input _ => input

def Call.output : Call → Bytes
  | update _ output => output
  | lessSafeUpdate _ output => output

/-- What a call wrote for the caller, and what EVP produced in it. -/
structure Passed where
  written : Bytes
  produced : Bytes
  deriving DecidableEq, Repr

section Stream

variable {κ : Type} (evp : Evp κ)

def Call.run : Call → EStateM Stop (DecryptingKey κ) BufferUpdate
  | update input output => Streaming.update evp input output
  | lessSafeUpdate input output => Streaming.lessSafeUpdate evp input output

/-- The least output a call takes. -/
def Call.room (k : DecryptingKey κ) : Call → Nat
  | update input _ => input.length + k.algorithm.blockLen - 1
  | lessSafeUpdate input _ =>
    input.length + (k.algorithm.blockLen - (k.outputGenerated + input.length) % k.algorithm.blockLen)
      % k.algorithm.blockLen

/-- What EVP produces in an update with `input`. -/
def DecryptingKey.updateProduced (k : DecryptingKey κ) (input : Bytes) : Bytes :=
  (evp.decryptUpdate k.cipherCtx input).1.produced (k.maxEvpOut input)

/-- What EVP produces at the end. -/
def DecryptingKey.finalProduced (k : DecryptingKey κ) : Bytes :=
  (evp.decryptFinal k.cipherCtx).produced (2 * k.algorithm.blockLen)

/-- One call after another, all of them `Ok`. -/
def session : List Call → DecryptingKey κ → Except Stop (List Passed × DecryptingKey κ)
  | [], k => .ok ([], k)
  | c :: cs, k =>
    match (c.run evp).run k with
    | .error e _ => .error e
    | .ok u k' =>
      match session cs k' with
      | .error e => .error e
      | .ok (ps, k'') => .ok (⟨u.written, k.updateProduced evp c.input⟩ :: ps, k'')

/-! ## What a call passes on -/

/-- What draining comes to: `n` bytes went to the front of the output, and either no byte is left or no room. -/
structure Drained (overflowBuf output output' : Bytes) (n : Nat) (rest : Bytes) : Prop where
  length : output'.length = output.length
  fits : n ≤ output'.length
  written : output'.take n ++ rest = overflowBuf
  ends : rest = [] ∨ output'.length = n

theorem drainOverflow_drained (overflowBuf output : Bytes) :
    Drained overflowBuf output (drainOverflow overflowBuf output).1 (drainOverflow overflowBuf output).2.1
      (drainOverflow overflowBuf output).2.2 := by
  unfold drainOverflow
  split
  · dsimp only
    have hlen : (overflowBuf.take (min overflowBuf.length output.length)).length
        = min overflowBuf.length output.length := by rw [List.length_take]; omega
    have hout : (splice output 0 (overflowBuf.take (min overflowBuf.length output.length))).length = output.length :=
      length_splice (by omega)
    refine ⟨hout, by rw [hout]; omega, ?_, ?_⟩
    · have htake : (splice output 0 (overflowBuf.take (min overflowBuf.length output.length))).take
          (overflowBuf.take (min overflowBuf.length output.length)).length = _ := take_splice_zero
      rw [hlen] at htake
      rw [htake, List.take_append_drop]
    · rw [hout]
      rcases Nat.le_total overflowBuf.length output.length with h | h
      · exact .inl (List.drop_eq_nil_of_le (by omega))
      · exact .inr (by omega)
  · rename_i hempty
    exact ⟨rfl, Nat.zero_le _, rfl, .inl (not_not.1 hempty)⟩

section Drained

variable {overflowBuf output output' rest tmp : Bytes} {n c : Nat} (h : Drained overflowBuf output output' n rest)
include h

theorem Drained.take_splice (hc : c ≤ tmp.length) :
    (splice output' n (tmp.take c)).take (n + c) = output'.take n ++ tmp.take c := by
  have hlen : (tmp.take c).length = c := by rw [List.length_take]; omega
  have htake : (splice output' n (tmp.take c)).take (n + (tmp.take c).length) = _ := Wolf.take_splice h.fits
  rwa [hlen] at htake

/-- What is written and what is kept make up what was kept and what is new. -/
theorem Drained.passes (len : Nat) (hc : c = min len (output'.length - n)) :
    output'.take n ++ tmp.take c ++ (if c < len then rest ++ slice tmp c (len - c) else rest)
      = overflowBuf ++ tmp.take len := by
  have hsplit : tmp.take c ++ slice tmp c (len - c) = tmp.take len := by
    have hadd := slice_add tmp 0 c (len - c)
    rw [show c + (len - c) = len by omega, slice_zero, slice_zero, Nat.zero_add] at hadd
    exact hadd.symm
  rcases h.ends with hrest | hroom
  · -- the overflow buffer is empty: what does not fit goes into it
    rw [← h.written, hrest, List.append_nil, List.nil_append]
    split
    · rw [List.append_assoc, hsplit]
    · rw [List.append_nil, show c = len by omega]
  · -- the output is full: nothing of `tmp` is written, all of it goes behind what is left
    have hzero : c = 0 := by omega
    rw [hzero, List.take_zero, List.append_nil, ← h.written, List.append_assoc]
    split
    · rw [Nat.sub_zero, slice_zero]
    · rw [show len = 0 by omega, List.take_zero, List.append_nil]

theorem Drained.length_written (hc : c ≤ min tmp.length (output'.length - n)) :
    (output'.take n ++ tmp.take c).length = n + c := by
  have hfits := h.fits
  rw [List.length_append, List.length_take, List.length_take]
  omega

/-- Something is kept only when the output is full. -/
theorem Drained.fills (len : Nat) (hc : c = min len (output'.length - n)) :
    (if c < len then rest ++ slice tmp c (len - c) else rest) = [] ∨ n + c = output.length := by
  have hfits := h.fits
  have hlength := h.length
  split
  · exact .inr (by omega)
  · rcases h.ends with hrest | hfull
    · exact .inl hrest
    · exact .inr (by omega)

theorem Drained.written_eq (len : Nat) (hc : c = min len (output'.length - n)) (htmp : c ≤ tmp.length) :
    output'.take n ++ tmp.take c = (overflowBuf ++ tmp.take len).take output.length := by
  have hfits := h.fits
  have hlen : (output'.take n ++ tmp.take c).length = n + c := h.length_written (by omega)
  rw [← h.passes len hc, ← h.length]
  by_cases hfull : n + c = output'.length
  · rw [← hfull, ← hlen, List.take_left]
  · have hrest : rest = [] := h.ends.resolve_right (by omega)
    rw [if_neg (by omega), hrest, List.append_nil]
    exact (List.take_of_length_le (by omega)).symm

end Drained

/-- **What an update that is `Ok` has done** with an output of `room` bytes: served the overflow first, then what EVP
produced, kept the rest in order, and kept something only with the output full. -/
structure Updated (k : DecryptingKey κ) (input : Bytes) (room : Nat) (u : BufferUpdate) (k' : DecryptingKey κ) : Prop where
  algorithm : k'.algorithm = k.algorithm
  queue : u.written ++ k'.overflowBuf = k.overflowBuf ++ k.updateProduced evp input
  fills : k'.overflowBuf = [] ∨ u.written.length = room
  total : k'.outputGenerated = k.outputGenerated + u.written.length
  ctx : k'.cipherCtx = (evp.decryptUpdate k.cipherCtx input).2
  ret : (evp.decryptUpdate k.cipherCtx input).1.ret = 1
  produced : (k.updateProduced evp input).length = (evp.decryptUpdate k.cipherCtx input).1.outlen.toNat

theorem updateInternal_updated (input output : Bytes) (minOutsize : Nat) (k : DecryptingKey κ) :
    wp (updateInternal evp input output minOutsize)
      (fun u k' => minOutsize ≤ output.length ∧ Updated evp k input output.length u k') (fun _ _ => True) k := by
  unfold updateInternal
  split
  · trivial
  rename_i hroom
  simp only [wp_bind, wp_get]
  have hdrained := drainOverflow_drained k.overflowBuf output
  generalize drainOverflow k.overflowBuf output = drained at hdrained
  obtain ⟨output', n, rest⟩ := drained
  dsimp only at hdrained
  simp only [wp_modify]
  split
  · trivial
  simp only [wp_bind, wp_modify]
  split
  · trivial
  rename_i hret
  split
  · trivial
  split
  · trivial
  rename_i hlen
  simp only [wp_bind, wp_modify, wp_pure, BufferUpdate.new]
  have hprod : (k.updateProduced evp input).length = (evp.decryptUpdate k.cipherCtx input).1.outlen.toNat :=
    List.length_take_of_le (Nat.not_lt.1 hlen)
  rw [hdrained.take_splice (by omega)]
  refine ⟨Nat.not_lt.1 hroom, rfl, hdrained.passes _ rfl, ?_, ?_, rfl, not_not.1 hret, hprod⟩
  · rw [hdrained.length_written (by omega)]
    exact hdrained.fills _ rfl
  · rw [hdrained.length_written (by omega)]

theorem run_updated (c : Call) (k : DecryptingKey κ) :
    wp (c.run evp) (fun u k' => c.room k ≤ c.output.length ∧ Updated evp k c.input c.output.length u k')
      (fun _ _ => True) k := by
  cases c with
  | update input output =>
    simp only [Call.run, update, wp_bind, wp_get]
    split
    · trivial
    split
    · trivial
    exact updateInternal_updated evp input output _ k
  | lessSafeUpdate input output =>
    simp only [Call.run, lessSafeUpdate, wp_bind, wp_get]
    split
    · trivial
    split
    · trivial
    exact updateInternal_updated evp input output _ k

/-- **At the end as much of the overflow and of what EVP still produces is written as the output holds.** -/
theorem finish_written {k : DecryptingKey κ} {output : Bytes} {u : BufferUpdate} (h : k.finish evp output = .ok u) :
    u.written = (k.overflowBuf ++ k.finalProduced evp).take output.length := by
  have hdrained := drainOverflow_drained k.overflowBuf output
  unfold DecryptingKey.finish at h
  generalize drainOverflow k.overflowBuf output = drained at hdrained h
  obtain ⟨output', n, rest⟩ := drained
  dsimp only at h hdrained
  split at h
  · cases h
  split at h
  · cases h
  split at h
  · cases h
  split at h
  · cases h
  rename_i hcopy
  cases h
  rw [BufferUpdate.new, hdrained.take_splice (by omega)]
  exact hdrained.written_eq _ rfl (by omega)

/-- A `finish` that is `Ok` was handed a block of output, and EVP's last call succeeded. -/
theorem finish_ok {k : DecryptingKey κ} {output : Bytes} {u : BufferUpdate} (h : k.finish evp output = .ok u) :
    (evp.decryptFinal k.cipherCtx).ret = 1 ∧ k.algorithm.blockLen ≤ output.length := by
  unfold DecryptingKey.finish at h
  dsimp only at h
  split at h
  · cases h
  rename_i hroom
  split at h
  · cases h
  rename_i hret
  exact ⟨not_not.1 hret, Nat.not_lt.1 hroom⟩

/-! ## The whole stream -/

/-- One call that is `Ok`. -/
def Step (k : DecryptingKey κ) (p : Option Passed) (k' : DecryptingKey κ) : Prop :=
  ∃ (c : Call) (u : BufferUpdate), (c.run evp).run k = .ok u k' ∧ p = some ⟨u.written, k.updateProduced evp c.input⟩

theorem session_trace : ∀ (cs : List Call) {k k' : DecryptingKey κ} {ps : List Passed},
    session evp cs k = .ok (ps, k') → Trace (Step evp) k ps k'
  | [], k, k', ps, h => by
    cases h
    exact .refl
  | c :: cs, k, k', ps, h => by
    rw [session] at h
    cases hrun : (c.run evp).run k with
    | error e m => rw [hrun] at h; cases h
    | ok u m =>
      rw [hrun] at h
      dsimp only at h
      cases hrest : session evp cs m with
      | error e => rw [hrest] at h; cases h
      | ok r =>
        rw [hrest] at h
        cases h
        exact (Trace.event ⟨c, u, hrun, rfl⟩).trans (session_trace cs hrest)

/-- **The overflow buffer is a queue**: after any calls, what was written and what is kept is what EVP produced. -/
theorem session_queue {cs : List Call} {k k' : DecryptingKey κ} {ps : List Passed} (h : session evp cs k = .ok (ps, k')) :
    ps.flatMap Passed.written ++ k'.overflowBuf = k.overflowBuf ++ ps.flatMap Passed.produced := by
  refine Trace.queue DecryptingKey.overflowBuf ?_ (session_trace evp cs h)
  rintro m e m' ⟨c, u, hrun, rfl⟩
  obtain ⟨-, hupdated⟩ := wp_ok (run_updated evp c m) hrun
  rw [Option.toList_some, List.flatMap_singleton, List.flatMap_singleton]
  exact hupdated.queue

/-- **When a stream comes out whole**: the calls write what EVP produced, in order, exactly when the buffer handed to
`finish` holds what the overflow buffer still keeps and what EVP produces at the end. -/
theorem whole_iff_room {k k' : DecryptingKey κ} {calls : List Call} {parts : List Passed} {output : Bytes}
    {last : BufferUpdate} (hempty : k.overflowBuf = []) (hcalls : session evp calls k = .ok (parts, k'))
    (hfinish : k'.finish evp output = .ok last) :
    parts.flatMap Passed.written ++ last.written = parts.flatMap Passed.produced ++ k'.finalProduced evp ↔
      k'.overflowBuf.length + (k'.finalProduced evp).length ≤ output.length := by
  have hqueue := session_queue evp hcalls
  rw [hempty, List.nil_append] at hqueue
  rw [finish_written evp hfinish, ← hqueue, List.append_assoc, List.append_cancel_left_eq, List.take_eq_self_iff,
    List.length_append]

end Stream

end Streaming
end Wolf
