import WolfsslRs.Bytes
import WolfsslRs.HsmNvm
/-!
# HsmOverwrite — replacing an object of a wolfHSM server (`wolfhsm`, `nvm.rs`)

`nvm_overwrite` deletes the object, and goes on to add the new one also if there was none to delete.  Whatever then keeps
it from adding is reported as lost data, whether there were data or not.
-/
namespace Wolf
namespace Hsm

/-! ## The server -/

structure NvmObject where
  access : UInt16
  flags : UInt16
  label : Bytes
  data : Bytes
  deriving DecidableEq

abbrev Store := UInt16 → Option NvmObject

def Store.set (store : Store) (id : UInt16) (object : Option NvmObject) : Store :=
  fun other => if other = id then object else store other

@[simp] theorem Store.set_self (store : Store) (id : UInt16) (object : Option NvmObject) :
    store.set id object id = object := if_pos rfl

/-- A request's fate: the codes of the transport and of the server, and whether the server did what it was asked.  A
reply that arrived tells which; of one that did not, nothing is known. -/
structure Answer where
  rc : Int
  outRc : Int
  done : Bool
  honest : rc = 0 → (done = true ↔ outRc = 0)

def Answer.check (answer : Answer) (func : String) : Except Error Unit := do
  Error.check answer.rc func
  Error.check answer.outRc (func ++ "(server)")

/-- The code that decides: the server's if its reply arrived. -/
def Answer.code (answer : Answer) : Int := if answer.rc = 0 then answer.outRc else answer.rc

theorem Answer.check_eq (answer : Answer) (func : String) :
    ∃ func', answer.check func = Error.check answer.code func' := by
  unfold Answer.check Answer.code
  by_cases hrc : answer.rc = 0
  · rw [if_pos hrc, hrc]
    exact ⟨_, rfl⟩
  · rw [if_neg hrc]
    cases hcheck : Error.check answer.rc func with
    | ok => exact absurd (check_ok.1 hcheck) hrc
    | error e => exact ⟨func, hcheck.symm⟩

theorem Answer.check_ok_iff {answer : Answer} {func : String} : answer.check func = .ok () ↔ answer.code = 0 := by
  obtain ⟨func', heq⟩ := answer.check_eq func
  rw [heq]
  exact check_ok

theorem Answer.done_of_code {answer : Answer} (h : answer.code = 0) : answer.done = true := by
  unfold Answer.code at h
  by_cases hrc : answer.rc = 0
  · rw [if_pos hrc] at h
    exact (answer.honest hrc).2 h
  · rw [if_neg hrc] at h
    exact absurd h hrc

/-! ## The calls -/

def nvmLabelLen : Nat := 24

/-- `truncate_label`: the buffer, and how much of it is the label. -/
def truncateLabel (label : Bytes) : Bytes × Nat :=
  let len := min label.length nvmLabelLen
  (label.take len ++ List.replicate (nvmLabelLen - len) 0, len)

def nvmDelete (answer : Answer) (id : UInt16) (store : Store) : Except Error Unit × Store :=
  (answer.check "wh_Client_NvmDestroyObjects", if answer.done then store.set id none else store)

def newObject (access flags : UInt16) (label data : Bytes) : NvmObject :=
  ⟨access, flags, (truncateLabel label).1.take (truncateLabel label).2, data⟩

/-- An object that is not there need not be deleted. -/
def orNotFound : Except Error Unit → Except Error Unit
  | .ok () => .ok ()
  | .error (.wh code) => if code = whErrorNotfound then .ok () else .error (.wh code)
  | .error e => .error e

def nvmOverwrite (toDelete toAdd : Answer) (id access flags : UInt16) (label data : Bytes) (store : Store) :
    Except Error Unit × Store :=
  if id = 0 then
    (.error (.invalidInput
      "id must not be NvmId::INVALID (0); wolfHSM auto-assign does not return the assigned ID"), store)
  else if data.length > 65535 then (.error (.invalidInput "nvm_overwrite data exceeds u16::MAX bytes"), store)
  else
    let (deleted, store) := nvmDelete toDelete id store
    match orNotFound deleted with
    | .error e => (.error e, store)
    | .ok () =>
      ((toAdd.check "wh_Client_NvmAddObject").mapError fun _ => .dataLost id,
        if toAdd.done then store.set id (some (newObject access flags label data)) else store)

/-- The delete lets the call go on. -/
def Answer.Passes (answer : Answer) : Prop := answer.code = 0 ∨ answer.code = whErrorNotfound

instance (answer : Answer) : Decidable answer.Passes := inferInstanceAs (Decidable (_ ∨ _))

theorem orNotFound_check_of_passes {answer : Answer} (h : answer.Passes) (func : String) :
    orNotFound (answer.check func) = .ok () := by
  obtain ⟨func', heq⟩ := answer.check_eq func
  rw [heq]
  rcases h with hzero | hnotfound
  · rw [hzero]
    rfl
  · rw [hnotfound]
    rfl

theorem orNotFound_check_of_not {answer : Answer} (h : ¬ answer.Passes) (func : String) :
    ∃ e, (∀ lost, e ≠ .dataLost lost) ∧ orNotFound (answer.check func) = .error e := by
  obtain ⟨func', heq⟩ := answer.check_eq func
  have hzero : answer.code ≠ 0 := fun h' => h (.inl h')
  have hfound : answer.code ≠ whErrorNotfound := fun h' => h (.inr h')
  rw [heq, Error.check, if_neg hzero]
  by_cases hrange : whErrorMin ≤ answer.code ∧ answer.code ≤ whErrorMax
  · exact ⟨.wh answer.code, fun _ => Error.noConfusion, by rw [if_pos hrange, orNotFound, if_neg hfound]⟩
  · exact ⟨.ffi answer.code func', fun _ => Error.noConfusion, by rw [if_neg hrange]; rfl⟩

/-! ## What a caller learns -/

/-- The result says what became of the object: replaced, lost, or as it was. -/
structure Tells (toDelete : Answer) (id : UInt16) (new : NvmObject) (before : Store)
    (result : Except Error Unit × Store) : Prop where
  ok : result.1 = .ok () → result.2 id = some new
  lost : ∀ lost, result.1 = .error (.dataLost lost) → lost = id ∧ before id ≠ none ∧ toDelete.done = true
  kept : ∀ e, result.1 = .error e → (∀ lost, e ≠ .dataLost lost) → ∀ old, before id = some old → result.2 id = some old

/-- The call is refused at once; or the delete passes, and the add succeeds or there was an object that is now deleted;
or the delete fails, and has not deleted an object. -/
def Tellable (toDelete toAdd : Answer) (id : UInt16) (data : Bytes) (before : Store) : Prop :=
  id = 0 ∨ 65535 < data.length ∨
    if toDelete.Passes then toAdd.code = 0 ∨ (before id ≠ none ∧ toDelete.done = true)
    else before id = none ∨ toDelete.done = false

section
variable (toDelete toAdd : Answer) (id access flags : UInt16) (label data : Bytes) (store : Store)

theorem nvmOverwrite_refused (h : id = 0 ∨ 65535 < data.length) :
    ∃ msg, nvmOverwrite toDelete toAdd id access flags label data store = (.error (.invalidInput msg), store) := by
  unfold nvmOverwrite
  by_cases hid : id = 0
  · rw [if_pos hid]
    exact ⟨_, rfl⟩
  · rw [if_neg hid, if_pos (h.resolve_left hid)]
    exact ⟨_, rfl⟩

variable {id data} (hid : id ≠ 0) (hdata : ¬ 65535 < data.length)
include hid hdata

theorem nvmOverwrite_stops {toDelete : Answer} (h : ¬ toDelete.Passes) :
    ∃ e, (∀ lost, e ≠ .dataLost lost) ∧ nvmOverwrite toDelete toAdd id access flags label data store =
      (.error e, if toDelete.done then store.set id none else store) := by
  obtain ⟨e, hlost, heq⟩ := orNotFound_check_of_not h "wh_Client_NvmDestroyObjects"
  refine ⟨e, hlost, ?_⟩
  unfold nvmOverwrite nvmDelete
  rw [if_neg hid, if_neg hdata]
  simp only [heq]

theorem nvmOverwrite_adds {toDelete : Answer} (h : toDelete.Passes) :
    (toAdd.code = 0 ∧ ∃ after, after id = some (newObject access flags label data) ∧
      nvmOverwrite toDelete toAdd id access flags label data store = (.ok (), after)) ∨
    (toAdd.code ≠ 0 ∧ ∃ after,
      nvmOverwrite toDelete toAdd id access flags label data store = (.error (.dataLost id), after)) := by
  unfold nvmOverwrite nvmDelete
  rw [if_neg hid, if_neg hdata]
  simp only [orNotFound_check_of_passes h]
  by_cases hcode : toAdd.code = 0
  · rw [Answer.check_ok_iff.2 hcode, Answer.done_of_code hcode]
    exact .inl ⟨hcode, _, Store.set_self _ _ _, rfl⟩
  · refine .inr ⟨hcode, ?_⟩
    cases hcheck : toAdd.check "wh_Client_NvmAddObject" with
    | ok => exact absurd (Answer.check_ok_iff.1 hcheck) hcode
    | error e => exact ⟨_, rfl⟩

end

/-- **What an overwrite tells** is true just of the calls for which it can be told. -/
theorem nvm_overwrite_tells_iff (toDelete toAdd : Answer) (id access flags : UInt16) (label data : Bytes)
    (store : Store) :
    Tells toDelete id (newObject access flags label data) store
      (nvmOverwrite toDelete toAdd id access flags label data store) ↔
    Tellable toDelete toAdd id data store := by
  by_cases hrefused : id = 0 ∨ 65535 < data.length
  · obtain ⟨msg, heq⟩ := nvmOverwrite_refused toDelete toAdd id access flags label data store hrefused
    rw [heq]
    refine iff_of_true ⟨nofun, nofun, fun _ _ _ _ hold => hold⟩ ?_
    rcases hrefused with hid | hdata
    · exact .inl hid
    · exact .inr (.inl hdata)
  obtain ⟨hid, hdata⟩ := not_or.1 hrefused
  unfold Tellable
  rw [or_iff_right hid, or_iff_right hdata]
  by_cases hpass : toDelete.Passes
  · rw [if_pos hpass]
    rcases nvmOverwrite_adds toAdd access flags label store hid hdata hpass with ⟨hcode, after, hnew, heq⟩ |
      ⟨hcode, after, heq⟩
    · rw [heq]
      exact iff_of_true ⟨fun _ => hnew, nofun, nofun⟩ (.inl hcode)
    · rw [heq, or_iff_right hcode]
      constructor
      · exact fun h => (h.lost id rfl).2
      · intro h
        refine ⟨nofun, ?_, ?_⟩
        · rintro lost ⟨⟩
          exact ⟨rfl, h⟩
        · rintro e ⟨⟩ hlost
          exact absurd rfl (hlost id)
  · rw [if_neg hpass]
    obtain ⟨e, hlost, heq⟩ := nvmOverwrite_stops toAdd access flags label store hid hdata hpass
    rw [heq]
    constructor
    · intro h
      cases hold : store id with
      | none => exact .inl rfl
      | some old =>
        have hkept := h.kept e rfl hlost old hold
        cases hdone : toDelete.done with
        | false => exact .inr rfl
        | true => simp [hdone] at hkept
    · intro h
      refine ⟨nofun, ?_, ?_⟩
      · rintro lost ⟨⟩
        exact absurd rfl (hlost lost)
      · intro _ _ _ old hold
        rcases h with hnone | hnot
        · rw [hnone] at hold
          cases hold
        · simp only [hnot]
          exact hold

/-- A first write to an object, for which there is no space: its data are said to be lost. -/
theorem first_write_lost :
    let notFound : Answer := ⟨0, whErrorNotfound, false, by decide⟩
    let noSpace : Answer := ⟨0, -2105, false, by decide⟩
    nvmOverwrite notFound noSpace 5 0 0 [] [1, 2, 3] (fun _ => none) = (.error (.dataLost 5), fun _ => none) ∧
    ¬ Tells notFound 5 (newObject 0 0 [] [1, 2, 3]) (fun _ => none)
      (nvmOverwrite notFound noSpace 5 0 0 [] [1, 2, 3] fun _ => none) := by
  refine ⟨rfl, fun h => ?_⟩
  exact (h.lost 5 rfl).2.1 rfl

end Hsm
end Wolf
