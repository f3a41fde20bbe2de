import WolfsslRs.Bytes
import WolfsslRs.SharedSlot
/-!
# HwHash — hash and HMAC callbacks of the Caliptra backend (wolfcrypt-dpe-hw)

wolfCrypt calls the backend once for each update of a hash or HMAC context and once for its final.  The backend keeps the
state in between in two globals, one slot for every hash and one for every HMAC, which only a final empties.  The hash
slot is replaced where its type is not the update's, the HMAC slot never is; a context that is freed without a final
therefore leaves its data, and for an HMAC its key, to the next.
-/
namespace Wolf
namespace DpeHw

open SharedSlot (Context Slot AllIsolated)

/-- The hash types that are dispatched. -/
inductive HashType where
  | sha256 | sha384 | sha512
  deriving DecidableEq, Repr

/-- The codes of `wc_HashType`. -/
def HashType.code : HashType → Nat
  | .sha256 => 6
  | .sha384 => 7
  | .sha512 => 8

def HashType.ofCode : Nat → Option HashType
  | 6 => some .sha256
  | 7 => some .sha384
  | 8 => some .sha512
  | _ => none

/-- A streaming hash of the `sha2` crate, and the function it computes. -/
structure Sha2 where
  State : Type
  new : State
  update : State → Bytes → State
  finalize : State → Bytes
  hash : Bytes → Bytes
  correct : ∀ chunks : List Bytes, finalize (chunks.foldl update new) = hash chunks.flatten

/-- The streaming HMAC-SHA-384 of the `hmac` crate, which takes keys of every length, and the function it computes. -/
structure HmacSha384 where
  State : Type
  newFromSlice : Bytes → Option State
  update : State → Bytes → State
  finalize : State → Bytes
  mac : Bytes → Bytes → Bytes
  correct : ∀ (key : Bytes) (chunks : List Bytes),
    ∃ s, newFromSlice key = some s ∧ finalize (chunks.foldl update s) = mac key chunks.flatten

/-- `CRYPTOCB_UNAVAILABLE`. -/
def cryptocbUnavailable : Int := -271

/-- `HwHashState`: the type of the running hash and its state. -/
structure HwHashState (sha2 : HashType → Sha2) where
  type : HashType
  state : (sha2 type).State

/-- The globals of the backend. -/
structure Device (sha2 : HashType → Sha2) (hmac : HmacSha384) where
  hwHashState : Option (HwHashState sha2)
  hwHmacState : Option hmac.State
  hashDispatchCount : Nat

def Device.new (sha2 : HashType → Sha2) (hmac : HmacSha384) : Device sha2 hmac := ⟨none, none, 0⟩

/-- What a callback returns, and what it wrote to `digest`. -/
structure Reply where
  rc : Int
  digest : Option Bytes
  deriving DecidableEq, Repr

/-- The hash part of `wc_CryptoInfo`: `in_` is `none` for a null pointer, `digest` says whether it is not null. -/
structure HashInfo where
  type_ : Nat
  in_ : Option Bytes
  digest : Bool
  deriving DecidableEq, Repr

section Dispatch

variable {sha2 : HashType → Sha2} {hmac : HmacSha384}

def makeHashState (t : HashType) : HwHashState sha2 := ⟨t, (sha2 t).new⟩

def hashTypeMatches (st : HwHashState sha2) (t : HashType) : Bool := decide (st.type = t)

def hashUpdate (st : HwHashState sha2) (data : Bytes) : HwHashState sha2 :=
  { st with state := (sha2 st.type).update st.state data }

def hashFinalize (st : HwHashState sha2) : Bytes := (sha2 st.type).finalize st.state

def dispatchHash (info : HashInfo) (dev : Device sha2 hmac) : Reply × Device sha2 hmac :=
  match HashType.ofCode info.type_ with
  | none => (⟨cryptocbUnavailable, none⟩, dev)
  | some t =>
    let data := info.in_.getD []
    if info.digest then
      let st := dev.hwHashState.getD (makeHashState t)
      (⟨0, some (hashFinalize st)⟩,
        { dev with hwHashState := none, hashDispatchCount := dev.hashDispatchCount + 1 })
    else
      let st := match dev.hwHashState with
        | none => makeHashState t
        | some st => if hashTypeMatches st t then st else makeHashState t
      (⟨0, none⟩, { dev with hwHashState := some (if data = [] then st else hashUpdate st data) })

/-- The part of wolfCrypt's `Hmac` that is read; `keyRaw` is `none` for a null pointer. -/
structure Hmac where
  keyRaw : Option Bytes
  keyLen : Nat
  deriving DecidableEq, Repr

structure HmacInfo where
  macType : Int
  in_ : Option Bytes
  digest : Bool
  hmac : Option Hmac
  deriving DecidableEq, Repr

def extractHmacKey : Option Hmac → Bytes
  | none => []
  | some h =>
    match h.keyRaw with
    | none => []
    | some raw => if h.keyLen = 0 then [] else raw.take h.keyLen

def dispatchHmac (info : HmacInfo) (dev : Device sha2 hmac) : Reply × Device sha2 hmac :=
  if info.macType ≠ HashType.sha384.code then (⟨cryptocbUnavailable, none⟩, dev)
  else
    let data := info.in_.getD []
    -- the key is read only where the slot is empty
    let state := match dev.hwHmacState with
      | some st => some st
      | none => hmac.newFromSlice (extractHmacKey info.hmac)
    if info.digest then
      match state with
      | none => (⟨cryptocbUnavailable, none⟩, { dev with hwHmacState := none })
      | some st =>
        (⟨0, some (hmac.finalize st)⟩,
          { dev with hwHmacState := none, hashDispatchCount := dev.hashDispatchCount + 1 })
    else
      match state with
      | none => (⟨cryptocbUnavailable, none⟩, dev)
      | some st => (⟨0, none⟩, { dev with hwHmacState := some (if data = [] then st else hmac.update st data) })

end Dispatch

/-! ## Hash contexts -/

/-- The running hash is kept for an update of its own type. -/
def hashKeep (running own : HashType) : Bool := decide (running = own)

section Hash

variable (sha2 : HashType → Sha2) (hmac : HmacSha384)

def hashFeed (t : HashType) (dev : Device sha2 hmac) (data : Bytes) : Device sha2 hmac :=
  (dispatchHash ⟨t.code, some data, false⟩ dev).2

def hashFinish (t : HashType) (dev : Device sha2 hmac) : Reply × Device sha2 hmac := dispatchHash ⟨t.code, none, true⟩ dev

/-- **What the finals of successive hash contexts are answered**, the backend being fresh at first. -/
def hashReplies (history : List (Context HashType UInt8)) : List (Option Reply) :=
  SharedSlot.serve (hashFeed sha2 hmac) (hashFinish sha2 hmac) history (.new sha2 hmac)

/-- What a final is to answer: the hash of the context's own type of its own updates. -/
def hashReply (r : HashType × Bytes) : Reply := ⟨0, some ((sha2 r.1).hash r.2)⟩

/-- A hash state into which `chunks` have gone. -/
def absorbed (t : HashType) (chunks : List Bytes) : HwHashState sha2 :=
  ⟨t, chunks.foldl (sha2 t).update (sha2 t).new⟩

/-- **The hash slot as the data it stands for.** -/
def HashStands : Option (HwHashState sha2) → Slot HashType UInt8 → Prop
  | none, none => True
  | some st, some (t, b) => ∃ chunks : List Bytes, chunks.flatten = b ∧ st = absorbed sha2 t chunks
  | _, _ => False

end Hash

section HashStands

variable {sha2 : HashType → Sha2} {hmac : HmacSha384}

@[simp] theorem HashType.ofCode_code (t : HashType) : HashType.ofCode t.code = some t := by cases t <;> rfl

/-- Data that goes into a hash state, nothing being done for none. -/
theorem absorbed_update (t : HashType) (chunks : List Bytes) (data : Bytes) :
    ∃ chunks' : List Bytes, chunks'.flatten = chunks.flatten ++ data ∧
      (if data = [] then absorbed sha2 t chunks else hashUpdate (absorbed sha2 t chunks) data) =
        absorbed sha2 t chunks' := by
  by_cases hd : data = []
  · exact ⟨chunks, by rw [hd, List.append_nil], if_pos hd⟩
  · refine ⟨chunks ++ [data], by rw [List.flatten_append, List.flatten_singleton], ?_⟩
    rw [if_neg hd, absorbed, absorbed, List.foldl_append]
    rfl

/-- **An update of the hash slot is an update of the data it stands for.** -/
theorem hashFeed_stands (t : HashType) (dev : Device sha2 hmac) (p : Slot HashType UInt8) (data : Bytes)
    (h : HashStands sha2 dev.hwHashState p) :
    HashStands sha2 (hashFeed sha2 hmac t dev data).hwHashState
      (SharedSlot.update hashKeep t p data) := by
  have hfresh : ∃ chunks' : List Bytes, chunks'.flatten = data ∧
      (if data = [] then makeHashState t else hashUpdate (makeHashState t) data) = absorbed sha2 t chunks' :=
    absorbed_update t [] data
  simp only [hashFeed, dispatchHash, HashType.ofCode_code, Option.getD_some, Bool.false_eq_true, if_false]
  cases hst : dev.hwHashState with
  | none =>
    cases p with
    | some x => rw [hst] at h; exact h.elim
    | none => exact hfresh
  | some st =>
    cases p with
    | none => rw [hst] at h; exact h.elim
    | some x =>
      obtain ⟨t', b⟩ := x
      rw [hst] at h
      obtain ⟨chunks, rfl, rfl⟩ := h
      simp only [SharedSlot.update]
      have hmatch : hashTypeMatches (absorbed sha2 t' chunks) t = hashKeep t' t := rfl
      rw [hmatch]
      by_cases hkeep : hashKeep t' t = true
      · rw [if_pos hkeep, if_pos hkeep]
        exact absorbed_update t' chunks data
      · rw [if_neg hkeep, if_neg hkeep]
        exact hfresh

/-- **A final answers with the hash of what the slot stands for** and empties it. -/
theorem hashFinish_stands (t : HashType) (dev : Device sha2 hmac) (p : Slot HashType UInt8)
    (h : HashStands sha2 dev.hwHashState p) :
    (hashFinish sha2 hmac t dev).1 = hashReply sha2 (p.getD (t, [])) ∧
      HashStands sha2 (hashFinish sha2 hmac t dev).2.hwHashState none := by
  have hworth : ∀ (t' : HashType) (chunks : List Bytes),
      hashFinalize (absorbed sha2 t' chunks) = (sha2 t').hash chunks.flatten := fun t' chunks => (sha2 t').correct chunks
  simp only [hashFinish, dispatchHash, HashType.ofCode_code, if_true]
  refine ⟨?_, trivial⟩
  cases hst : dev.hwHashState with
  | none =>
    cases p with
    | some x => rw [hst] at h; exact h.elim
    | none => exact congrArg (fun d => Reply.mk 0 (some d)) (hworth t [])
  | some st =>
    cases p with
    | none => rw [hst] at h; exact h.elim
    | some x =>
      obtain ⟨t', b⟩ := x
      rw [hst] at h
      obtain ⟨chunks, rfl, rfl⟩ := h
      exact congrArg (fun d => Reply.mk 0 (some d)) (hworth t' chunks)

end HashStands

theorem hashReplies_eq (sha2 : HashType → Sha2) (hmac : HmacSha384) (history : List (Context HashType UInt8)) :
    hashReplies sha2 hmac history =
      (SharedSlot.run hashKeep history none).map (Option.map (hashReply sha2)) :=
  SharedSlot.serve_eq_run (R := fun (dev : Device sha2 hmac) p => HashStands sha2 dev.hwHashState p)
    (fun t dev p d h => hashFeed_stands t dev p d h) (fun t dev p h => hashFinish_stands t dev p h) history _ none trivial

theorem foldl_append_chunks : ∀ (chunks : List Bytes) (b : Bytes), chunks.foldl (· ++ ·) b = b ++ chunks.flatten
  | [], b => by rw [List.foldl_nil, List.flatten_nil, List.append_nil]
  | c :: chunks, b => by rw [List.foldl_cons, foldl_append_chunks chunks, List.append_assoc, List.flatten_cons]

/-- A `sha2` crate whose digests tell which type and which bytes they are of. -/
def tellingSha2 (t : HashType) : Sha2 where
  State := Bytes
  new := []
  update := (· ++ ·)
  finalize b := UInt8.ofNat t.code :: b
  hash b := UInt8.ofNat t.code :: b
  correct chunks := by rw [foldl_append_chunks, List.nil_append]

/-- A key and data, the key marked byte by byte. -/
def delimited : Bytes → Bytes → Bytes
  | [], d => 0 :: d
  | b :: key, d => 1 :: b :: delimited key d

/-- An `hmac` crate whose tags tell under which key and of which bytes they are. -/
def tellingHmac : HmacSha384 where
  State := Bytes × Bytes
  newFromSlice key := some (key, [])
  update s d := (s.1, s.2 ++ d)
  finalize s := delimited s.1 s.2
  mac := delimited
  correct key chunks := by
    have hfold : ∀ (chunks : List Bytes) (b : Bytes),
        chunks.foldl (fun (s : Bytes × Bytes) d => (s.1, s.2 ++ d)) (key, b) = (key, b ++ chunks.flatten) := by
      intro chunks
      induction chunks with
      | nil => intro b; rw [List.foldl_nil, List.flatten_nil, List.append_nil]
      | cons c chunks ih => intro b; rw [List.foldl_cons, ih, List.append_assoc, List.flatten_cons]
    exact ⟨_, rfl, by rw [hfold, List.nil_append]⟩

theorem hashReply_telling : Function.Injective (hashReply tellingSha2) := by
  rintro ⟨t, b⟩ ⟨t', b'⟩ h
  have hcons : UInt8.ofNat t.code :: b = UInt8.ofNat t'.code :: b' := Option.some.inj (congrArg Reply.digest h)
  obtain ⟨hcode, rfl⟩ := List.cons.inj hcons
  have ht : t = t' := by revert hcode; cases t <;> cases t' <;> decide
  rw [ht]

/-- **When the digests of successive hash contexts are their own**, whatever the hash functions: exactly when each
finalised context finds the slot empty, or replaces a running hash of another type by an update of its own, or finds a
running hash of its own type into which nothing has gone. -/
theorem hash_digests_own_iff (history : List (Context HashType UInt8)) :
    (∀ (sha2 : HashType → Sha2) (hmac : HmacSha384),
      hashReplies sha2 hmac history = history.map fun c => c.own.map (hashReply sha2)) ↔
      AllIsolated hashKeep history none := by
  rw [← SharedSlot.run_own_iff (show ∀ t, hashKeep t t = true from fun _ => decide_eq_true rfl)]
  constructor
  · intro h
    have h := h tellingSha2 tellingHmac
    rw [hashReplies_eq, ← Function.comp_def, ← List.map_map] at h
    exact List.map_injective_iff.2 (Option.map_injective hashReply_telling) h
  · intro h sha2 hmac
    rw [hashReplies_eq, h, List.map_map]
    rfl

/-- A context abandoned after an update goes into the digest of the next of its type, and a final with no update before it
gives the digest of an abandoned context of another type. -/
theorem abandoned_hash_leaks :
    (∀ (sha2 : HashType → Sha2) (hmac : HmacSha384),
      hashReplies sha2 hmac [⟨.sha256, [[1]], false⟩, ⟨.sha256, [[2]], true⟩] =
          [none, some ⟨0, some ((sha2 .sha256).hash [1, 2])⟩] ∧
        hashReplies sha2 hmac [⟨.sha512, [[1]], false⟩, ⟨.sha256, [], true⟩] =
          [none, some ⟨0, some ((sha2 .sha512).hash [1])⟩]) ∧
      ¬∀ (sha2 : HashType → Sha2) (hmac : HmacSha384),
        hashReplies sha2 hmac [⟨.sha256, [[1]], false⟩, ⟨.sha256, [[2]], true⟩] =
          [none, some ⟨0, some ((sha2 .sha256).hash [2])⟩] := by
  have hfirst : ∀ sha2 hmac, hashReplies sha2 hmac [⟨.sha256, [[1]], false⟩, ⟨.sha256, [[2]], true⟩] =
      [none, some ⟨0, some ((sha2 .sha256).hash [1, 2])⟩] := fun sha2 hmac => by rw [hashReplies_eq]; rfl
  refine ⟨fun sha2 hmac => ⟨hfirst sha2 hmac, by rw [hashReplies_eq]; rfl⟩, fun h => ?_⟩
  have h := (hfirst tellingSha2 tellingHmac).symm.trans (h tellingSha2 tellingHmac)
  exact absurd h (by decide)

/-! ## HMAC contexts -/

section Hmac

variable (sha2 : HashType → Sha2) (hmac : HmacSha384)

/-- The `Hmac` of a context set up by `wc_HmacSetKey`. -/
def Hmac.keyed (key : Bytes) : Hmac := ⟨some key, key.length⟩

def hmacFeed (key : Bytes) (dev : Device sha2 hmac) (data : Bytes) : Device sha2 hmac :=
  (dispatchHmac ⟨HashType.sha384.code, some data, false, some (.keyed key)⟩ dev).2

def hmacFinish (key : Bytes) (dev : Device sha2 hmac) : Reply × Device sha2 hmac :=
  dispatchHmac ⟨HashType.sha384.code, none, true, some (.keyed key)⟩ dev

/-- **What the finals of successive HMAC contexts are answered**, the backend being fresh at first. -/
def hmacReplies (history : List (Context Bytes UInt8)) : List (Option Reply) :=
  SharedSlot.serve (hmacFeed sha2 hmac) (hmacFinish sha2 hmac) history (.new sha2 hmac)

/-- What a final is to answer: the HMAC under the context's own key of its own updates. -/
def hmacReply (r : Bytes × Bytes) : Reply := ⟨0, some (hmac.mac r.1 r.2)⟩

/-- The running HMAC is kept for every update. -/
def hmacKeep (_running _own : Bytes) : Bool := true

/-- **The HMAC slot as the key and the data it stands for.** -/
def HmacStands : Option hmac.State → Slot Bytes UInt8 → Prop
  | none, none => True
  | some st, some (key, b) => ∃ (s : hmac.State) (chunks : List Bytes), hmac.newFromSlice key = some s ∧
      chunks.flatten = b ∧ st = chunks.foldl hmac.update s
  | _, _ => False

end Hmac

section HmacStands

variable {sha2 : HashType → Sha2} {hmac : HmacSha384}

theorem extractHmacKey_keyed (key : Bytes) : extractHmacKey (some (.keyed key)) = key := by
  simp only [extractHmacKey, Hmac.keyed, List.take_length]
  split
  · rename_i h
    exact (List.eq_nil_of_length_eq_zero h).symm
  · rfl

theorem HmacSha384.keys (hmac : HmacSha384) (key : Bytes) : ∃ s, hmac.newFromSlice key = some s := by
  obtain ⟨s, hs, -⟩ := hmac.correct key []
  exact ⟨s, hs⟩

theorem HmacStands.update {st : hmac.State} {key b : Bytes} (h : HmacStands hmac (some st) (some (key, b)))
    (data : Bytes) :
    HmacStands hmac (some (if data = [] then st else hmac.update st data)) (some (key, b ++ data)) := by
  obtain ⟨s, chunks, hs, rfl, rfl⟩ := h
  by_cases hd : data = []
  · rw [if_pos hd, hd, List.append_nil]
    exact ⟨s, chunks, hs, rfl, rfl⟩
  · rw [if_neg hd]
    exact ⟨s, chunks ++ [data], hs, by rw [List.flatten_append, List.flatten_singleton], by rw [List.foldl_append]; rfl⟩

theorem hmacFeed_stands (key : Bytes) (dev : Device sha2 hmac) (p : Slot Bytes UInt8) (data : Bytes)
    (h : HmacStands hmac dev.hwHmacState p) :
    HmacStands hmac (hmacFeed sha2 hmac key dev data).hwHmacState (SharedSlot.update hmacKeep key p data) := by
  simp only [hmacFeed, dispatchHmac, ne_eq, not_true_eq_false, if_false, Option.getD_some, Bool.false_eq_true,
    extractHmacKey_keyed]
  cases hst : dev.hwHmacState with
  | none =>
    cases p with
    | some x => rw [hst] at h; exact h.elim
    | none =>
      obtain ⟨s, hs⟩ := hmac.keys key
      simp only [hs]
      exact HmacStands.update (b := []) ⟨s, [], hs, rfl, rfl⟩ data
  | some st =>
    cases p with
    | none => rw [hst] at h; exact h.elim
    | some x =>
      obtain ⟨key', b⟩ := x
      rw [hst] at h
      exact h.update data

theorem hmacFinish_stands (key : Bytes) (dev : Device sha2 hmac) (p : Slot Bytes UInt8)
    (h : HmacStands hmac dev.hwHmacState p) :
    (hmacFinish sha2 hmac key dev).1 = hmacReply hmac (p.getD (key, [])) ∧
      HmacStands hmac (hmacFinish sha2 hmac key dev).2.hwHmacState none := by
  have hworth : ∀ (key : Bytes) (s : hmac.State) (chunks : List Bytes), hmac.newFromSlice key = some s →
      hmac.finalize (chunks.foldl hmac.update s) = hmac.mac key chunks.flatten := by
    intro key s chunks hs
    obtain ⟨s', hs', hmac'⟩ := hmac.correct key chunks
    cases hs.symm.trans hs'
    exact hmac'
  simp only [hmacFinish, dispatchHmac, ne_eq, not_true_eq_false, if_false, if_true, extractHmacKey_keyed]
  cases hst : dev.hwHmacState with
  | none =>
    cases p with
    | some x => rw [hst] at h; exact h.elim
    | none =>
      obtain ⟨s, hs⟩ := hmac.keys key
      simp only [hs]
      exact ⟨congrArg (fun d => Reply.mk 0 (some d)) (hworth key s [] hs), trivial⟩
  | some st =>
    cases p with
    | none => rw [hst] at h; exact h.elim
    | some x =>
      obtain ⟨key', b⟩ := x
      rw [hst] at h
      obtain ⟨s, chunks, hs, rfl, rfl⟩ := h
      exact ⟨congrArg (fun d => Reply.mk 0 (some d)) (hworth key' s chunks hs), trivial⟩

end HmacStands

theorem hmacReplies_eq (sha2 : HashType → Sha2) (hmac : HmacSha384) (history : List (Context Bytes UInt8)) :
    hmacReplies sha2 hmac history =
      (SharedSlot.run hmacKeep history none).map (Option.map (hmacReply hmac)) :=
  SharedSlot.serve_eq_run (R := fun (dev : Device sha2 hmac) p => HmacStands hmac dev.hwHmacState p)
    (fun key dev p d h => hmacFeed_stands key dev p d h) (fun key dev p h => hmacFinish_stands key dev p h) history _ none
    trivial

theorem delimited_injective : ∀ {k k' d d' : Bytes}, delimited k d = delimited k' d' → k = k' ∧ d = d'
  | [], [], d, d', h => ⟨rfl, (List.cons.inj h).2⟩
  | [], b :: k', d, d', h => absurd (List.cons.inj h).1 (by decide)
  | b :: k, [], d, d', h => absurd (List.cons.inj h).1 (by decide)
  | b :: k, b' :: k', d, d', h => by
    obtain ⟨hb, hrest⟩ := List.cons.inj (List.cons.inj h).2
    obtain ⟨rfl, rfl⟩ := delimited_injective hrest
    exact ⟨by rw [hb], rfl⟩

theorem hmacReply_telling : Function.Injective (hmacReply tellingHmac) := by
  rintro ⟨k, d⟩ ⟨k', d'⟩ h
  obtain ⟨rfl, rfl⟩ := delimited_injective (Option.some.inj (congrArg Reply.digest h))
  rfl

/-- **When the tags of successive HMAC contexts are their own**, whatever the MAC: exactly when each finalised context
finds the slot empty, or finds there a running HMAC under its own key into which nothing has gone. -/
theorem hmac_tags_own_iff (history : List (Context Bytes UInt8)) :
    (∀ (sha2 : HashType → Sha2) (hmac : HmacSha384),
      hmacReplies sha2 hmac history = history.map fun c => c.own.map (hmacReply hmac)) ↔
      AllIsolated hmacKeep history none := by
  rw [← SharedSlot.run_own_iff (show ∀ k, hmacKeep k k = true from fun _ => rfl)]
  constructor
  · intro h
    have h := h tellingSha2 tellingHmac
    rw [hmacReplies_eq, ← Function.comp_def, ← List.map_map] at h
    exact List.map_injective_iff.2 (Option.map_injective hmacReply_telling) h
  · intro h sha2 hmac
    rw [hmacReplies_eq, h, List.map_map]
    rfl

/-- A context abandoned after an update gives the next its key and its data. -/
theorem abandoned_hmac_leaks :
    (∀ (sha2 : HashType → Sha2) (hmac : HmacSha384),
      hmacReplies sha2 hmac [⟨[7], [[1]], false⟩, ⟨[9], [[2]], true⟩] = [none, some ⟨0, some (hmac.mac [7] [1, 2])⟩]) ∧
      ¬∀ (sha2 : HashType → Sha2) (hmac : HmacSha384),
        hmacReplies sha2 hmac [⟨[7], [[1]], false⟩, ⟨[9], [[2]], true⟩] = [none, some ⟨0, some (hmac.mac [9] [2])⟩] := by
  have hfirst : ∀ sha2 hmac, hmacReplies sha2 hmac [⟨[7], [[1]], false⟩, ⟨[9], [[2]], true⟩] =
      [none, some ⟨0, some (hmac.mac [7] [1, 2])⟩] := fun sha2 hmac => by rw [hmacReplies_eq]; rfl
  refine ⟨hfirst, fun h => ?_⟩
  have h := (hfirst tellingSha2 tellingHmac).symm.trans (h tellingSha2 tellingHmac)
  exact absurd h (by decide)

end DpeHw
end Wolf
