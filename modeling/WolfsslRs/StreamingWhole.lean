import WolfsslRs.CipherKeys
import WolfsslRs.Streaming
/-!
# StreamingWhole — a streamed plaintext comes out whole

`finish` takes an output of one block, whatever the overflow buffer still keeps.  What saves the bytes is how EVP
buffers: in the padded modes it keeps the input of an unfinished block and at most one block of plaintext, and at the end
of a block exactly that one, for the padding it may hold.  So a stream is never more than 31 bytes behind, the output an
update asks for catches up with all but the last block whenever the input ends with a block, and only such a stream can be
finished.
-/
namespace Wolf
namespace Streaming

open Program Rust
open Cipher (CipherEvp DecryptionContext Construct algorithmOf initContext streamingDecryptingKeyNew)

/-! ## How EVP buffers -/

/-- The modes with a block of padding at the end. -/
def OperatingMode.pads : OperatingMode → Bool
  | cbc | ecb => true
  | ctr | cfb128 => false

/-- A context set up for `mode` that has been given `taken` bytes, and has given `given` for them, in updates that all
succeeded. -/
inductive Reaches {κ : Type} (make : CipherEvp κ) (evp : Evp κ) (mode : OperatingMode) : (taken given : Nat) → κ → Prop
  | init {c₀ c : κ} {id : AlgorithmId} {key : Bytes} {iv : Option Bytes} (hnew : make.cipherCtxNew = some c₀)
      (hinit : make.decryptInit c₀ id mode key iv = some c) : Reaches make evp mode 0 0 c
  | update {taken given : Nat} {c : κ} {input : Bytes} (h : Reaches make evp mode taken given c)
      (hret : (evp.decryptUpdate c input).1.ret = 1) :
      Reaches make evp mode (taken + input.length) (given + (evp.decryptUpdate c input).1.outlen.toNat)
        (evp.decryptUpdate c input).2

/-- What EVP may keep of `taken` bytes: without padding nothing; with padding the bytes of an unfinished block and, or not,
the block before it, which it always keeps when the bytes end with it. -/
def OperatingMode.Keeps (mode : OperatingMode) (taken kept : Nat) : Prop :=
  if mode.pads then kept = 16 + taken % 16 ∨ kept = taken % 16 ∧ (taken % 16 ≠ 0 ∨ taken = 0) else kept = 0

/-- **How wolfSSL's EVP layer buffers**: what it keeps at any time, and that the last call, if it succeeds, comes after
whole blocks in the padded modes and gives no more than one. -/
structure Buffers {κ : Type} (make : CipherEvp κ) (evp : Evp κ) : Prop where
  keeps : ∀ {mode taken given c}, Reaches make evp mode taken given c →
    ∃ kept, taken = given + kept ∧ mode.Keeps taken kept
  final : ∀ {mode taken given c}, Reaches make evp mode taken given c → (evp.decryptFinal c).ret = 1 →
    (evp.decryptFinal c).outlen ≤ 16 ∧ (mode.pads = true → taken % 16 = 0)

/-! ## What a stream is behind by -/

/-- How many of the bytes given to it a stream may not have written yet. -/
def OperatingMode.slack (mode : OperatingMode) : Nat := if mode.pads then 31 else 0

section Stream

variable {κ : Type} {make : CipherEvp κ} {evp : Evp κ} {mode : OperatingMode} {taken : Nat} {k k' : DecryptingKey κ}

/-- **The stream keeps up**: what EVP has given is written or in the overflow buffer, which is empty at the end of a
block. -/
structure KeepsUp (make : CipherEvp κ) (evp : Evp κ) (mode : OperatingMode) (taken : Nat) (k : DecryptingKey κ) : Prop where
  blockLen : k.algorithm.blockLen = 16
  reaches : Reaches make evp mode taken (k.outputGenerated + k.overflowBuf.length) k.cipherCtx
  behind : taken ≤ k.outputGenerated + mode.slack
  clear : (mode.pads = true → taken % 16 = 0) → k.overflowBuf.length = 0

/-- The output a call asks for holds its input; and where the input ends with a block, all that is not written by then
but one block. -/
theorem room_enough (c : Call) (hblock : k.algorithm.blockLen = 16) (hbehind : taken ≤ k.outputGenerated + 31) :
    c.input.length ≤ c.room k ∧
      ((taken + c.input.length) % 16 = 0 → taken + c.input.length ≤ k.outputGenerated + c.room k + 16) := by
  cases c with
  | update input output =>
    simp only [Call.input, Call.room, hblock]
    omega
  | lessSafeUpdate input output =>
    simp only [Call.input, Call.room, hblock]
    omega

/-- **One call**: an update that is `Ok` keeps a stream up. -/
theorem KeepsUp.update (hevp : Buffers make evp) (h : KeepsUp make evp mode taken k) {c : Call} {u : BufferUpdate}
    (hrun : (c.run evp).run k = .ok u k') : KeepsUp make evp mode (taken + c.input.length) k' := by
  obtain ⟨hasked, hup⟩ := wp_ok (run_updated evp c k) hrun
  have hbehind := h.behind
  have htotal := hup.total
  have hreach := h.reaches.update hup.ret
  rw [← hup.ctx, ← hup.produced] at hreach
  have hlen : u.written.length + k'.overflowBuf.length
      = k.overflowBuf.length + (k.updateProduced evp c.input).length := by
    rw [← List.length_append, ← List.length_append, hup.queue]
  have hgiven : k.outputGenerated + k.overflowBuf.length + (k.updateProduced evp c.input).length
      = k'.outputGenerated + k'.overflowBuf.length := by
    omega
  rw [hgiven] at hreach
  obtain ⟨kept, htaken, hkept⟩ := hevp.keeps hreach
  have hfills : k'.overflowBuf.length = 0 ∨ c.room k ≤ u.written.length := by
    rcases hup.fills with hnil | hfull
    · exact .inl (by rw [hnil]; rfl)
    · exact .inr (by omega)
  have hblock : k'.algorithm.blockLen = 16 := by rw [hup.algorithm]; exact h.blockLen
  unfold OperatingMode.slack at hbehind
  unfold OperatingMode.Keeps at hkept
  cases hpads : mode.pads with
  | false =>
    -- EVP keeps nothing, so what is left to write is the input, and the output holds that
    simp only [hpads, Bool.false_eq_true, if_false] at hbehind hkept
    obtain ⟨hin, -⟩ := room_enough c h.blockLen (Nat.le_trans hbehind (by omega))
    have hclear : k'.overflowBuf.length = 0 := by omega
    exact ⟨hblock, hreach, by omega, fun _ => hclear⟩
  | true =>
    simp only [hpads, if_true] at hbehind hkept
    obtain ⟨hin, hcatch⟩ := room_enough c h.blockLen hbehind
    refine ⟨hblock, hreach, ?_, fun hend => ?_⟩
    · rw [OperatingMode.slack, hpads, if_pos rfl]
      omega
    · have hend := hend hpads
      have hcatch := hcatch hend
      omega

/-- **The whole run.** -/
theorem KeepsUp.session (hevp : Buffers make evp) {calls : List Call} {parts : List Passed}
    (h : KeepsUp make evp mode taken k) (hcalls : session evp calls k = .ok (parts, k')) :
    ∃ taken', KeepsUp make evp mode taken' k' := by
  refine (session_trace evp calls hcalls).rel (R := fun _ m => ∃ taken', KeepsUp make evp mode taken' m) ⟨taken, h⟩ ?_
  rintro u m e m' ⟨t, hm⟩ ⟨c, w, hrun, -⟩
  exact ⟨_, hm.update hevp hrun⟩

/-- A key that was made starts with a context of EVP's, and nothing written or kept. -/
theorem new_keepsUp (evp : Evp κ) {build : Build} {id : AlgorithmId} {keyBytes : Bytes} {context : DecryptionContext}
    {handed handed' : List Bytes}
    (hnew : (streamingDecryptingKeyNew make build ⟨algorithmOf id, keyBytes⟩ mode context).run handed = .ok k handed') :
    k.overflowBuf = [] ∧ KeepsUp make evp mode 0 k := by
  obtain ⟨c, t, hinit, h⟩ := run_bind_ok.1 hnew
  cases h
  obtain ⟨c₀, hc₀, hc⟩ := Cipher.run_initContext_ok hinit
  exact ⟨rfl, by cases id <;> rfl, .init hc₀ hc, Nat.zero_le _, fun _ => rfl⟩

end Stream

/-- **A stream comes out whole**: over an EVP layer that buffers as wolfSSL's does, for every AES key, mode and context,
and whatever calls of `update` and `less_safe_update` with whatever inputs and outputs come before `finish`: if all of
them are `Ok`, what was written is what EVP produced, byte for byte and in order. -/
theorem stream_whole {κ : Type} (make : CipherEvp κ) (evp : Evp κ) (hevp : Buffers make evp) (build : Build)
    (id : AlgorithmId) (keyBytes : Bytes) (mode : OperatingMode) (context : DecryptionContext) (handed handed' : List Bytes)
    (k k' : DecryptingKey κ) (calls : List Call) (parts : List Passed) (output : Bytes) (last : BufferUpdate)
    (hnew : (streamingDecryptingKeyNew make build ⟨algorithmOf id, keyBytes⟩ mode context).run handed = .ok k handed')
    (hcalls : session evp calls k = .ok (parts, k')) (hfinish : k'.finish evp output = .ok last) :
    parts.flatMap Passed.written ++ last.written = parts.flatMap Passed.produced ++ k'.finalProduced evp := by
  obtain ⟨hempty, hstart⟩ := new_keepsUp evp hnew
  obtain ⟨taken, hup⟩ := hstart.session hevp hcalls
  obtain ⟨hret, hroom⟩ := finish_ok evp hfinish
  obtain ⟨hfinal, hend⟩ := hevp.final hup.reaches hret
  have hproduced : (k'.finalProduced evp).length ≤ 16 := by
    rw [DecryptingKey.finalProduced, Answer.produced, List.length_take]
    omega
  refine (whole_iff_room evp hempty hcalls hfinish).2 ?_
  rw [hup.clear hend, Nat.zero_add]
  rw [hup.blockLen] at hroom
  omega

/-! ## An EVP layer that buffers so -/

/-- A context that leaves the text as it is: whether there is padding, and the bytes kept. -/
structure PlainCtx where
  pads : Bool
  kept : Bytes
  deriving DecidableEq, Repr

/-- How many bytes are kept of `kept` and `input` more.  The block before an unfinished one is let go if it came through
with other whole blocks, and kept if it was filled up from bytes that had been kept. -/
def keepLen (kept input : Nat) : Nat :=
  if (kept + input) % 16 = 0 then min 16 (kept + input)
  else if kept + input < 16 then kept + input
  else if (16 - kept % 16) % 16 + 16 ≤ input then (kept + input) % 16
  else 16 + (kept + input) % 16

def plainMake : CipherEvp PlainCtx where
  cipherCtxNew := some ⟨false, []⟩
  hasCipher _ _ := true
  cipherKeyLength id _ := (algorithmOf id).keyLen
  cipherIvLength _ _ := 16
  encryptInit c _ _ _ _ := some c
  decryptInit _ _ mode _ _ := some ⟨mode.pads, []⟩

/-- With padding, the last call takes the padding off the block kept, of which the last byte is the length. -/
def plainEvp : Evp PlainCtx where
  decryptUpdate c input :=
    let text := c.kept ++ input
    let n := if c.pads then text.length - keepLen c.kept.length input.length else text.length
    (⟨1, n, text.take n⟩, ⟨c.pads, text.drop n⟩)
  decryptFinal c :=
    if c.pads then
      let n := 16 - (c.kept.getLastD 0).toNat
      if c.kept.length = 16 then ⟨1, n, c.kept.take n⟩ else ⟨0, 0, []⟩
    else ⟨1, 0, []⟩

theorem keepLen_keeps {taken kept : Nat} (input : Nat)
    (h : kept = 16 + taken % 16 ∨ kept = taken % 16 ∧ (taken % 16 ≠ 0 ∨ taken = 0)) :
    keepLen kept input ≤ kept + input ∧
      (keepLen kept input = 16 + (taken + input) % 16 ∨
        keepLen kept input = (taken + input) % 16 ∧ ((taken + input) % 16 ≠ 0 ∨ taken + input = 0)) := by
  unfold keepLen
  split
  · omega
  split
  · omega
  split
  · omega
  · omega

theorem plain_reaches {mode : OperatingMode} {taken given : Nat} {c : PlainCtx}
    (h : Reaches plainMake plainEvp mode taken given c) :
    c.pads = mode.pads ∧ taken = given + c.kept.length ∧ mode.Keeps taken c.kept.length := by
  induction h with
  | init hnew hinit =>
    cases hinit
    exact ⟨rfl, rfl, by unfold OperatingMode.Keeps; split <;> simp⟩
  | @update taken given c input h hret ih =>
    obtain ⟨hpads, htaken, hkeeps⟩ := ih
    unfold OperatingMode.Keeps at hkeeps ⊢
    simp only [plainEvp, Int.toNat_natCast, List.length_drop, List.length_append]
    cases hmode : mode.pads with
    | false =>
      rw [hpads, hmode]
      rw [hmode] at hkeeps
      simp only [Bool.false_eq_true, if_false] at hkeeps ⊢
      refine ⟨trivial, ?_, ?_⟩ <;> omega
    | true =>
      rw [hpads, hmode]
      rw [hmode] at hkeeps
      simp only [if_true] at hkeeps ⊢
      obtain ⟨hle, hkeep⟩ := keepLen_keeps input.length hkeeps
      rw [Nat.sub_sub_self hle]
      exact ⟨trivial, by omega, hkeep⟩

theorem plain_buffers : Buffers plainMake plainEvp where
  keeps h := ⟨_, (plain_reaches h).2⟩
  final h hret := by
    obtain ⟨hpads, htaken, hkeeps⟩ := plain_reaches h
    unfold OperatingMode.Keeps at hkeeps
    simp only [plainEvp] at hret ⊢
    rw [← hpads] at hkeeps ⊢
    split at hret
    · rename_i hp
      split at hret
      · rename_i hlen
        rw [if_pos hp] at hkeeps
        rw [if_pos hp, if_pos hlen]
        exact ⟨by show ((_ : Nat) : Int) ≤ 16; omega, fun _ => by omega⟩
      · cases hret
    · rename_i hp
      rw [if_neg hp]
      exact ⟨by decide, fun h => absurd h hp⟩

/-- The text of four blocks with three bytes of padding, in pieces of 16, 15, 18 and 15 bytes.  EVP keeps 31 bytes of
the first two and lets 48 go in the third call, for which there are 33 bytes of output; the fourth gives the other 15. -/
def fourPieces : List Call :=
  [.update (List.replicate 16 1) (List.replicate 31 0), .update (List.replicate 15 2) (List.replicate 30 0),
    .update (List.replicate 18 3) (List.replicate 33 0),
    .lessSafeUpdate (List.replicate 12 4 ++ List.replicate 3 3) (List.replicate 15 0)]

theorem stream_whole_overflow : ∃ (k k' : DecryptingKey PlainCtx) (parts : List Passed) (last : BufferUpdate),
    (streamingDecryptingKeyNew plainMake Build.debug ⟨algorithmOf .aes128, List.replicate 16 9⟩ .cbc
      (.iv128 ⟨List.replicate 16 5, rfl⟩)).run [] = .ok k [List.replicate 16 9] ∧
    session plainEvp fourPieces k = .ok (parts, k') ∧ k'.finish plainEvp (List.replicate 16 0) = .ok last ∧
    parts.map (·.written.length) = [0, 0, 33, 15] ∧
    parts.flatMap Passed.written ++ last.written =
      List.replicate 16 1 ++ List.replicate 15 2 ++ List.replicate 18 3 ++ List.replicate 12 4 :=
  ⟨_, _, _, _, rfl, rfl, rfl, rfl, stream_whole plainMake plainEvp plain_buffers Build.debug .aes128
    (List.replicate 16 9) .cbc (.iv128 ⟨List.replicate 16 5, rfl⟩) [] _ _ _ fourPieces _ (List.replicate 16 0) _
    rfl rfl rfl⟩

end Streaming
end Wolf
