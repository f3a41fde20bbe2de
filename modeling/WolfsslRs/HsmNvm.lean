import Mathlib.Algebra.Group.Nat.Defs
import Mathlib.Data.List.Nodup
import Mathlib.Data.List.Perm.Subperm
/-!
# HsmNvm — listing the objects of a wolfHSM server (`wolfhsm`, `nvm.rs` and `error.rs`)

`nvm_list` follows a cursor that the server moves, and asks only that it does not stay where it is.  So a server that
goes to and fro is followed without an end; one that goes through its directory has it returned as it is.
-/
namespace Wolf
namespace Hsm

/-! ## Errors -/

inductive Error where
  | wh (code : Int)
  | ffi (code : Int) (func : String)
  | alreadyRegistered
  | invalidInput (msg : String)
  | dataLost (id : UInt16)
  | protocolError (msg : String)
  | signatureInvalid
  deriving DecidableEq

def whErrorMin : Int := -2302
def whErrorMax : Int := -2000
def whErrorNotfound : Int := -2104

def Error.check (rc : Int) (func : String) : Except Error Unit :=
  if rc = 0 then .ok ()
  else if whErrorMin ≤ rc ∧ rc ≤ whErrorMax then .error (.wh rc)
  else .error (.ffi rc func)

theorem check_ok {rc : Int} {func : String} : Error.check rc func = .ok () ↔ rc = 0 := by
  unfold Error.check
  by_cases hzero : rc = 0
  · simp [hzero]
  · by_cases hrange : whErrorMin ≤ rc ∧ rc ≤ whErrorMax
    · simp [hzero, hrange]
    · simp [hzero, hrange]

/-! ## Listing -/

structure ListReply where
  rc : Int
  outRc : Int
  outCount : UInt16
  outId : UInt16
  deriving DecidableEq

inductive Pass where
  | finish
  | fail (e : Error)
  | advance (id : UInt16)
  deriving DecidableEq

/-- The body of the loop of `nvm_list`; `out_count` is only a hint for the capacity of the list. -/
def listPass (startId : UInt16) (reply : ListReply) : Pass :=
  match Error.check reply.rc "wh_Client_NvmList" with
  | .error e => .fail e
  | .ok () =>
    if reply.outRc = whErrorNotfound then .finish
    else match Error.check reply.outRc "wh_Client_NvmList(server)" with
      | .error e => .fail e
      | .ok () =>
        if reply.outId = 0 then .finish
        else if reply.outId = startId ∧ startId ≠ 0 then
          .fail (.protocolError "wh_Client_NvmList: server returned out_id == start_id; cursor stuck")
        else .advance reply.outId

/-- A server answers each request as it will, whatever the cursor is. -/
abbrev ListServer := Nat → UInt16 → ListReply

/-- The loop from the request `k` on, with `n` requests at most; `none` if it has not ended by then. -/
def listFrom (server : ListServer) : Nat → Nat → List UInt16 → UInt16 → Option (Except Error (List UInt16))
  | 0, _, _, _ => none
  | n + 1, k, ids, startId =>
    match listPass startId (server k startId) with
    | .finish => some (.ok ids)
    | .fail e => some (.error e)
    | .advance id => listFrom server n (k + 1) (ids ++ [id]) id

def nvmList (server : ListServer) (n : Nat) : Option (Except Error (List UInt16)) := listFrom server n 0 [] 0

/-- The cursor of the request `k`, as long as the loop goes on. -/
def cursor (server : ListServer) : Nat → UInt16
  | 0 => 0
  | k + 1 => (server k (cursor server k)).outId

def replyAt (server : ListServer) (k : Nat) : ListReply := server k (cursor server k)

def idsBefore (server : ListServer) (k : Nat) : List UInt16 := (List.range k).map fun j => (replyAt server j).outId

/-- The reply is an id: other than the cursor, and no end. -/
def Advances (startId : UInt16) (reply : ListReply) : Prop :=
  reply.rc = 0 ∧ reply.outRc = 0 ∧ reply.outId ≠ 0 ∧ reply.outId ≠ startId

/-- The reply is one of the two signs of the end of the list. -/
def Finishes (reply : ListReply) : Prop :=
  reply.rc = 0 ∧ (reply.outRc = whErrorNotfound ∨ reply.outRc = 0 ∧ reply.outId = 0)

instance (startId : UInt16) (reply : ListReply) : Decidable (Advances startId reply) := inferInstanceAs (Decidable (_ ∧ _))

instance (reply : ListReply) : Decidable (Finishes reply) := inferInstanceAs (Decidable (_ ∧ _))

/-- **What a pass does**, by the reply. -/
theorem listPass_cases (startId : UInt16) (reply : ListReply) :
    (Advances startId reply ∧ listPass startId reply = .advance reply.outId) ∨
    (Finishes reply ∧ ¬ Advances startId reply ∧ listPass startId reply = .finish) ∨
    (¬ Finishes reply ∧ ¬ Advances startId reply ∧ ∃ e, listPass startId reply = .fail e) := by
  unfold listPass Advances Finishes
  have hnotfound : whErrorNotfound ≠ 0 := by decide
  cases hrc : Error.check reply.rc "wh_Client_NvmList" with
  | error e =>
    have hne : reply.rc ≠ 0 := fun h => by rw [check_ok.2 h] at hrc; cases hrc
    exact .inr (.inr ⟨fun h => hne h.1, fun h => hne h.1, e, rfl⟩)
  | ok =>
    have hzero : reply.rc = 0 := check_ok.1 hrc
    by_cases hend : reply.outRc = whErrorNotfound
    · exact .inr (.inl ⟨⟨hzero, .inl hend⟩, fun h => hnotfound (hend.symm.trans h.2.1), by simp [hend]⟩)
    · cases hout : Error.check reply.outRc "wh_Client_NvmList(server)" with
      | error e =>
        have hne : reply.outRc ≠ 0 := fun h => by rw [check_ok.2 h] at hout; cases hout
        exact .inr (.inr ⟨fun h => h.2.elim hend fun h => hne h.1, fun h => hne h.2.1, e, by simp [hend]⟩)
      | ok =>
        have hzero' : reply.outRc = 0 := check_ok.1 hout
        by_cases hid : reply.outId = 0
        · exact .inr (.inl ⟨⟨hzero, .inr ⟨hzero', hid⟩⟩, fun h => h.2.2.1 hid, by simp [hend, hid]⟩)
        · by_cases hstuck : reply.outId = startId
          · refine .inr (.inr ⟨fun h => h.2.elim hend fun h => hid h.2, fun h => h.2.2.2 hstuck, ?_⟩)
            have hstart : startId ≠ 0 := hstuck ▸ hid
            exact ⟨.protocolError "wh_Client_NvmList: server returned out_id == start_id; cursor stuck",
              by simp [hend, hstuck, hstart]⟩
          · exact .inl ⟨⟨hzero, hzero', hid, hstuck⟩, by simp [hend, hid, hstuck]⟩

theorem not_advances_of_finishes {startId : UInt16} {reply : ListReply} (h : Finishes reply) :
    ¬ Advances startId reply := by
  rintro ⟨-, hout, hid, -⟩
  rcases h.2 with hend | ⟨-, hzero⟩
  · exact absurd (hend.symm.trans hout) (by decide)
  · exact hid hzero

theorem listPass_of_advances {startId : UInt16} {reply : ListReply} (h : Advances startId reply) :
    listPass startId reply = .advance reply.outId := by
  rcases listPass_cases startId reply with hadv | hfin | hfail
  · exact hadv.2
  · exact absurd h hfin.2.1
  · exact absurd h hfail.2.1

theorem listPass_of_finishes {reply : ListReply} (h : Finishes reply) (startId : UInt16) :
    listPass startId reply = .finish := by
  rcases listPass_cases startId reply with hadv | hfin | hfail
  · exact absurd hadv.1 (not_advances_of_finishes h)
  · exact hfin.2.2
  · exact absurd h hfail.1

/-- Every reply before the request `k` is an id. -/
def GoesOn (server : ListServer) (k : Nat) : Prop := ∀ j, j < k → Advances (cursor server j) (replyAt server j)

theorem idsBefore_succ (server : ListServer) (k : Nat) :
    idsBefore server (k + 1) = idsBefore server k ++ [(replyAt server k).outId] := by
  simp [idsBefore, List.range_succ]

theorem length_idsBefore (server : ListServer) (k : Nat) : (idsBefore server k).length = k := by
  simp [idsBefore]

/-- **As long as ids come**, the loop has them all and its cursor is the last. -/
theorem nvmList_goesOn {server : ListServer} (n : Nat) : {k : Nat} → GoesOn server k →
    nvmList server (k + n) = listFrom server n k (idsBefore server k) (cursor server k)
  | 0, _ => by rw [Nat.zero_add]; rfl
  | k + 1, h => by
    have hbefore : GoesOn server k := fun j hj => h j (Nat.lt_succ_of_lt hj)
    have hpass := listPass_of_advances (h k (Nat.lt_succ_self k))
    rw [show k + 1 + n = k + (n + 1) by omega, nvmList_goesOn (n + 1) hbefore, idsBefore_succ]
    unfold replyAt at hpass ⊢
    simp only [listFrom, hpass]
    rfl

theorem goesOn_or_stops (server : ListServer) : (n : Nat) → GoesOn server n ∨
    ∃ k, k < n ∧ GoesOn server k ∧ ¬ Advances (cursor server k) (replyAt server k)
  | 0 => .inl fun _ hj => absurd hj (Nat.not_lt_zero _)
  | n + 1 => by
    rcases goesOn_or_stops server n with hon | ⟨k, hk, hstop⟩
    · by_cases hadv : Advances (cursor server n) (replyAt server n)
      · refine .inl fun j hj => ?_
        rcases Nat.lt_succ_iff_lt_or_eq.1 hj with hlt | rfl
        · exact hon j hlt
        · exact hadv
      · exact .inr ⟨n, Nat.lt_succ_self n, hon, hadv⟩
    · exact .inr ⟨k, Nat.lt_succ_of_lt hk, hstop⟩

/-- **The end of the loop**: at an end of the list it returns what it has, and otherwise an error. -/
theorem nvmList_stops {server : ListServer} {k : Nat} (n : Nat) (hon : GoesOn server k)
    (hstop : ¬ Advances (cursor server k) (replyAt server k)) :
    (Finishes (replyAt server k) ∧ nvmList server (k + (n + 1)) = some (.ok (idsBefore server k))) ∨
    (¬ Finishes (replyAt server k) ∧ ∃ e, nvmList server (k + (n + 1)) = some (.error e)) := by
  rw [nvmList_goesOn (n + 1) hon]
  rcases listPass_cases (cursor server k) (replyAt server k) with hadv | hfin | hfail
  · exact absurd hadv.1 hstop
  · refine .inl ⟨hfin.1, ?_⟩
    have hpass := hfin.2.2
    unfold replyAt at hpass
    simp only [listFrom, hpass]
  · obtain ⟨hnot, -, e, hpass⟩ := hfail
    refine .inr ⟨hnot, e, ?_⟩
    unfold replyAt at hpass
    simp only [listFrom, hpass]

/-- As many ids as there are, zero among them. -/
def idCount : Nat := 2 ^ 16

theorem length_lt_idCount {ids : List UInt16} (hnodup : ids.Nodup) (hzero : 0 ∉ ids) : ids.length < idCount := by
  have hcons : ((0 :: ids).map UInt16.toNat).Nodup :=
    (List.nodup_cons.2 ⟨hzero, hnodup⟩).map fun _ _ h => UInt16.toNat_inj.1 h
  have hsub : (0 :: ids).map UInt16.toNat ⊆ List.range idCount := by
    intro m hm
    obtain ⟨id, -, rfl⟩ := List.mem_map.1 hm
    exact List.mem_range.2 id.toNat_lt
  have hle := (hcons.subperm hsub).length_le
  rw [List.length_map, List.length_cons, List.length_range] at hle
  exact hle

theorem zero_notMem_idsBefore {server : ListServer} {k : Nat} (hon : GoesOn server k) : 0 ∉ idsBefore server k := by
  intro h
  obtain ⟨j, hj, hid⟩ := List.mem_map.1 h
  exact (hon j (List.mem_range.1 hj)).2.2.1 hid

/-- The loop ends within as many requests as there are ids, and returns none of them twice. -/
def ListsOnce (server : ListServer) : Prop :=
  ∃ n, n ≤ idCount ∧ ∃ r, nvmList server n = some r ∧ ∀ ids, r = .ok ids → ids.Nodup

/-- The server itself comes to an end: of its list, before which no id came twice, or with a failure in time. -/
def EndsItself (server : ListServer) : Prop :=
  ∃ k, GoesOn server k ∧
    ((Finishes (replyAt server k) ∧ (idsBefore server k).Nodup) ∨
      (k < idCount ∧ ¬ Finishes (replyAt server k) ∧ ¬ Advances (cursor server k) (replyAt server k)))

theorem listsOnce_iff (server : ListServer) : ListsOnce server ↔ EndsItself server := by
  constructor
  · rintro ⟨n, hn, r, hrun, hnodup⟩
    rcases goesOn_or_stops server n with hon | ⟨k, hk, hon, hstop⟩
    · have hnone := nvmList_goesOn 0 hon
      rw [Nat.add_zero, hrun] at hnone
      cases hnone
    · obtain ⟨m, rfl⟩ : ∃ m, n = k + (m + 1) := ⟨n - k - 1, by omega⟩
      rcases nvmList_stops m hon hstop with ⟨hfin, hok⟩ | ⟨hnot, -⟩
      · exact ⟨k, hon, .inl ⟨hfin, hnodup _ (Option.some.inj (hrun.symm.trans hok))⟩⟩
      · exact ⟨k, hon, .inr ⟨Nat.lt_of_lt_of_le hk hn, hnot, hstop⟩⟩
  · rintro ⟨k, hon, ⟨hfin, hnodup⟩ | ⟨hk, hnot, hstop⟩⟩
    · have hlen := length_lt_idCount hnodup (zero_notMem_idsBefore hon)
      rw [length_idsBefore] at hlen
      rcases nvmList_stops 0 hon (not_advances_of_finishes hfin) with ⟨-, hok⟩ | ⟨hnot, -⟩
      · refine ⟨k + 1, hlen, _, hok, ?_⟩
        rintro ids ⟨⟩
        exact hnodup
      · exact absurd hfin hnot
    · rcases nvmList_stops 0 hon hstop with ⟨hfin, -⟩ | ⟨-, e, herr⟩
      · exact absurd hfin hnot
      · exact ⟨k + 1, hk, _, herr, fun ids h => by cases h⟩

/-- The id after the cursor in a directory, whose first comes after zero. -/
def nextId (dir : List UInt16) (startId : UInt16) : Option UInt16 :=
  match (0 :: dir).dropWhile (· ≠ startId) with
  | _ :: id :: _ => some id
  | _ => none

/-- A server that goes through its directory, and ends in either way. -/
structure Serves (dir : List UInt16) (server : ListServer) : Prop where
  next : ∀ k startId id, nextId dir startId = some id →
    (server k startId).rc = 0 ∧ (server k startId).outRc = 0 ∧ (server k startId).outId = id
  last : ∀ k startId, startId ∈ 0 :: dir → nextId dir startId = none → Finishes (server k startId)

theorem nextId_append {dir front rest : List UInt16} {startId : UInt16} (hdir : 0 :: dir = front ++ startId :: rest)
    (hnodup : (0 :: dir).Nodup) : nextId dir startId = rest.head? := by
  rw [hdir] at hnodup
  have hfront : startId ∉ front := fun h => (List.nodup_append.1 hnodup).2.2 startId h startId List.mem_cons_self rfl
  have hdrop : (0 :: dir).dropWhile (· ≠ startId) = startId :: rest := by
    rw [hdir, List.dropWhile_append_of_pos, List.dropWhile_cons_of_neg]
    · simp
    · intro id hid
      exact decide_eq_true fun h => hfront (h ▸ hid)
  unfold nextId
  rw [hdrop]
  cases rest with
  | nil => rfl
  | cons id rest => rfl

/-- **The rest of a directory**, from a cursor in it. -/
theorem listFrom_serves {dir : List UInt16} {server : ListServer} (hserves : Serves dir server)
    (hnodup : (0 :: dir).Nodup) : (rest front ids : List UInt16) → (startId : UInt16) → (k : Nat) →
    0 :: dir = front ++ startId :: rest → listFrom server (rest.length + 1) k ids startId = some (.ok (ids ++ rest))
  | [], front, ids, startId, k, hdir => by
    have hmem : startId ∈ 0 :: dir := hdir ▸ List.mem_append_right _ List.mem_cons_self
    have hfin := hserves.last k startId hmem (nextId_append hdir hnodup)
    simp only [listFrom, listPass_of_finishes hfin, List.append_nil]
  | id :: rest, front, ids, startId, k, hdir => by
    obtain ⟨hrc, hout, hid⟩ := hserves.next k startId id (nextId_append hdir hnodup)
    have hdir' : 0 :: dir = (front ++ [startId]) ++ id :: rest := by rw [hdir, List.append_assoc]; rfl
    have hapart : id ∉ front ++ [startId] := by
      rw [hdir'] at hnodup
      exact fun h => (List.nodup_append.1 hnodup).2.2 id h id List.mem_cons_self rfl
    have hzero : id ≠ 0 := by
      -- zero is before every id of the directory
      rintro rfl
      cases front with
      | nil => exact hapart (List.mem_singleton.2 (List.cons.inj hdir).1)
      | cons first front => exact hapart (List.mem_cons.2 (.inl (List.cons.inj hdir).1))
    have hadv : Advances startId (server k startId) :=
      ⟨hrc, hout, hid ▸ hzero, hid ▸ fun h => hapart (List.mem_append_right _ (List.mem_singleton.2 h))⟩
    have hrest := listFrom_serves hserves hnodup rest (front ++ [startId]) (ids ++ [id]) id (k + 1) hdir'
    rw [List.append_assoc] at hrest
    rw [List.length_cons, listFrom, listPass_of_advances hadv, hid]
    exact hrest

/-- **The listing**: it is bounded and free of repetitions just if the server ends it, and a server that goes through a
directory gives it whole and in order. -/
theorem nvm_list_ends_iff (server : ListServer) :
    (ListsOnce server ↔ EndsItself server) ∧
    ∀ dir : List UInt16, dir.Nodup → 0 ∉ dir → Serves dir server →
      nvmList server (dir.length + 1) = some (.ok dir) := by
  refine ⟨listsOnce_iff server, fun dir hnodup hzero hserves => ?_⟩
  exact listFrom_serves hserves (List.nodup_cons.2 ⟨hzero, hnodup⟩) dir [] [] 0 0 rfl

def directoryServer (dir : List UInt16) (lastRc : Int) : ListServer := fun _ startId =>
  match nextId dir startId with
  | some id => ⟨0, 0, dir.length.toUInt16, id⟩
  | none => ⟨0, lastRc, 0, 0⟩

theorem serves_directoryServer (dir : List UInt16) {lastRc : Int} (hlast : lastRc = whErrorNotfound ∨ lastRc = 0) :
    Serves dir (directoryServer dir lastRc) where
  next k startId id h := by simp [directoryServer, h]
  last k startId _ h := by
    rcases hlast with rfl | rfl
    · simp [directoryServer, h, Finishes]
    · simp [directoryServer, h, Finishes]

theorem nvm_list_ends_sample :
    nvmList (directoryServer [7, 3, 12] whErrorNotfound) 4 = some (.ok [7, 3, 12]) ∧
    nvmList (directoryServer [7, 3, 12] 0) 4 = some (.ok [7, 3, 12]) :=
  ⟨(nvm_list_ends_iff _).2 [7, 3, 12] (by decide) (by decide) (serves_directoryServer _ (.inl rfl)),
    (nvm_list_ends_iff _).2 [7, 3, 12] (by decide) (by decide) (serves_directoryServer _ (.inr rfl))⟩

/-- A server that sends a client from the id 1 to the id 2 and back. -/
def toAndFro : ListServer := fun _ startId => ⟨0, 0, 2, if startId = 1 then 2 else 1⟩

theorem toAndFro_never_ends : ¬ ListsOnce toAndFro ∧ ∀ n, nvmList toAndFro n = none := by
  have hadv : ∀ k startId, Advances startId (toAndFro k startId) := by
    intro k startId
    by_cases hone : startId = 1
    · have hid : (toAndFro k startId).outId = 2 := if_pos hone
      exact ⟨rfl, rfl, hid ▸ by decide, hid ▸ hone ▸ by decide⟩
    · have hid : (toAndFro k startId).outId = 1 := if_neg hone
      exact ⟨rfl, rfl, hid ▸ by decide, hid ▸ Ne.symm hone⟩
  have hnone : ∀ n, nvmList toAndFro n = none := fun n => nvmList_goesOn 0 fun j _ => hadv j _
  refine ⟨?_, hnone⟩
  rintro ⟨n, -, r, hrun, -⟩
  rw [hnone] at hrun
  cases hrun

end Hsm
end Wolf
