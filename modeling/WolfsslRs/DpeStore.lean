import WolfsslRs.Dpe
import WolfsslRs.Trace
/-!
# DpeStore — the exported CDIs of an instance, over any run

A run of an instance is any sequence of calls, with any answers of wolfCrypt to each.  Its store is the record of the
exports that ended well, in order (`records_run`): nothing else changes it.  So a handle that was once given leads to the
CDI it was given for, for the rest of the run, and no other handle leads anywhere (`exported_store_run`).
-/
namespace Wolf
namespace Dpe

open Program

/-! ## Calls -/

inductive Call where
  | randBytes (len : Nat)
  | hashInitialize
  | deriveCdi (measurement info : Bytes)
  | deriveExportedCdi (measurement info : Bytes)
  | deriveKeyPair (cdi label info : Bytes)
  | deriveKeyPairExported (exportedHandle : Handle) (label info : Bytes)
  | setAliasKey (privKey : Bytes) (pubKey : PubKey)
  | signWithAlias (data : SignData)
  | signWithDerived (data : SignData) (privKey : Bytes) (pubKey : PubKey)
  deriving DecidableEq

inductive Answer where
  | done
  | bytes (x : Bytes)
  | handle (handle : Handle)
  | keyPair (privKey : Bytes) (pubKey : PubKey)
  | signature (signature : Signature)
  deriving DecidableEq

section
variable (alg : SignatureAlgorithm) (W : WolfCrypt)

/-- One call; a hasher is made beside the instance. -/
def Call.run (env : Env) : Call → EStateM Exit WolfCryptDpe Answer
  | .randBytes len => (fun x => Answer.bytes x.1) <$> Dpe.randBytes env len
  | .hashInitialize => pure .done
  | .deriveCdi measurement info => Answer.bytes <$> Dpe.deriveCdi alg W env measurement info
  | .deriveExportedCdi measurement info => Answer.handle <$> Dpe.deriveExportedCdi alg W env measurement info
  | .deriveKeyPair cdi label info => (fun p => Answer.keyPair p.1 p.2) <$> Dpe.deriveKeyPair alg W env cdi label info
  | .deriveKeyPairExported exportedHandle label info =>
    (fun p => Answer.keyPair p.1 p.2) <$> Dpe.deriveKeyPairExported alg W env exportedHandle label info
  | .setAliasKey privKey pubKey => (fun _ => Answer.done) <$> Dpe.setAliasKey alg env privKey pubKey
  | .signWithAlias data => Answer.signature <$> Dpe.signWithAlias W env data
  | .signWithDerived data privKey pubKey => Answer.signature <$> Dpe.signWithDerived alg W env data privKey pubKey

/-- A call, and how it ended. -/
structure Event where
  call : Call
  outcome : Except Exit Answer
  deriving DecidableEq

/-- One call with some answers of wolfCrypt. -/
def Step (s : WolfCryptDpe) (e : Option Event) (s' : WolfCryptDpe) : Prop :=
  ∃ call env, match (Call.run alg W env call).run s with
    | .ok a t => e = some ⟨call, .ok a⟩ ∧ s' = t
    | .error x t => e = some ⟨call, .error x⟩ ∧ s' = t

end

/-- What was exported, if the call was an export that ended well: the measurement and info, and the handle. -/
def Event.exported (e : Event) : Option ((Bytes × Bytes) × Handle) :=
  match e.call, e.outcome with
  | .deriveExportedCdi measurement info, .ok (.handle handle) => some ((measurement, info), handle)
  | _, _ => none

/-! ## Calls that keep the store -/

/-- The store is as it was, however the program ends. -/
def Keeps {α : Type} (p : EStateM Exit WolfCryptDpe α) : Prop :=
  ∀ s, wp p (fun _ s' => s'.exportCdiSlots = s.exportCdiSlots) (fun _ s' => s'.exportCdiSlots = s.exportCdiSlots) s

section
variable {α β : Type} {alg : SignatureAlgorithm} {W : WolfCrypt} {env : Env}

theorem keeps_pure (a : α) : Keeps (pure a) := fun _ => rfl

theorem keeps_throw (e : Exit) : Keeps (throw e : EStateM Exit WolfCryptDpe α) := fun _ => rfl

theorem keeps_lift (r : Except Exit α) : Keeps (lift r) := by
  cases r with
  | ok a => exact keeps_pure a
  | error e => exact keeps_throw e

theorem keeps_map (f : α → β) {p : EStateM Exit WolfCryptDpe α} (h : Keeps p) : Keeps (f <$> p) :=
  fun s => wp_map.2 (h s)

theorem keeps_randBytes (len : Nat) : Keeps (randBytes env len) := by
  intro s
  obtain ⟨hfails, hruns⟩ := randBytes_run env len s
  unfold wp
  by_cases hinit : InitFails env s
  · rw [hfails hinit]
  · rw [hruns hinit]
    exact keeps_lift _ s.seeded

theorem keeps_deriveKeyPairExported (exportedHandle : Handle) (label info : Bytes) :
    Keeps (deriveKeyPairExported alg W env exportedHandle label info) := by
  intro s
  unfold deriveKeyPairExported
  rw [wp_bind, wp_get]
  cases findSlot exportedHandle s.exportCdiSlots with
  | none => exact keeps_throw _ s
  | some cdi => exact keeps_lift _ s

theorem keeps_setAliasKey (privKey : Bytes) (pubKey : PubKey) : Keeps (setAliasKey alg env privKey pubKey) := by
  intro s
  unfold setAliasKey
  rw [wp_bind]
  cases CachedSigningKey.new alg env privKey pubKey <;> rfl

theorem keeps_signWithAlias (data : SignData) : Keeps (signWithAlias W env data) := by
  intro s
  unfold signWithAlias
  rw [wp_bind, wp_get]
  cases s.aliasSigningKey with
  | none => exact keeps_throw _ s
  | some cached => exact keeps_lift _ s

/-! ## One step -/

/-- The CDI of a measurement and info. -/
def cdiOf (alg : SignatureAlgorithm) (W : WolfCrypt) (measurement info : Bytes) : Bytes :=
  W.hkdf alg info measurement measurement (hkdfOutputSize alg)

theorem hkdfDeriveCdi_ok {measurement info cdi : Bytes} (h : hkdfDeriveCdi alg W env measurement info = .ok cdi) :
    cdi = cdiOf alg W measurement info := by
  unfold hkdfDeriveCdi hkdfExtractExpand at h
  split at h
  · cases h
  · obtain ⟨_, -, h⟩ := bind_ok.1 h
    exact (Except.ok.inj h).symm

/-- **What an export does to the store**: nothing if it fails, and else there was room for a CDI that is new, which is put
at the end under the handle that is given. -/
theorem export_store (measurement info : Bytes) (s : WolfCryptDpe) :
    wp (deriveExportedCdi alg W env measurement info)
      (fun handle s' => s.exportCdiSlots.length < maxCdiHandles ∧
        cdiOf alg W measurement info ∉ s.exportCdiSlots.map Prod.fst ∧
        s'.exportCdiSlots = s.exportCdiSlots ++ [(cdiOf alg W measurement info, handle)])
      (fun _ s' => s'.exportCdiSlots = s.exportCdiSlots) s := by
  obtain ⟨hadmitted, hrefused⟩ := @deriveExportedCdi_run alg W env s measurement info
  unfold wp
  by_cases hadmits : Admits alg W env s measurement info
  · obtain ⟨cdi, hcdi, hnew, hroom⟩ := hadmits
    rw [hadmitted cdi hcdi hnew hroom]
    have hkeeps := @keeps_randBytes env maxExportedCdiSize s
    rw [← hkdfDeriveCdi_ok hcdi]
    unfold wp at hkeeps
    cases hrun : (randBytes env maxExportedCdiSize).run s with
    | ok handle s' =>
      rw [hrun] at hkeeps
      refine ⟨hroom, hnew, ?_⟩
      show s'.exportCdiSlots ++ _ = _
      rw [show s'.exportCdiSlots = s.exportCdiSlots from hkeeps]
    | error e s' =>
      rw [hrun] at hkeeps
      exact hkeeps
  · obtain ⟨e, he⟩ := hrefused hadmits
    rw [he]

/-- The slot of what was exported. -/
def slotOf (alg : SignatureAlgorithm) (W : WolfCrypt) (x : (Bytes × Bytes) × Handle) : Bytes × Handle :=
  (cdiOf alg W x.1.1 x.1.2, x.2)

/-- The store is as it was, or has a slot more for an export that ended well. -/
def Extends (alg : SignatureAlgorithm) (W : WolfCrypt) (s : WolfCryptDpe) (event : Event) (s' : WolfCryptDpe) : Prop :=
  (event.exported = none ∧ s'.exportCdiSlots = s.exportCdiSlots) ∨
    ∃ x, event.exported = some x ∧ s.exportCdiSlots.length < maxCdiHandles ∧
      (slotOf alg W x).1 ∉ s.exportCdiSlots.map Prod.fst ∧ s'.exportCdiSlots = s.exportCdiSlots ++ [slotOf alg W x]

theorem extends_of_keeps {call : Call} (hkeeps : Keeps (Call.run alg W env call))
    (hnone : ∀ outcome, (Event.mk call outcome).exported = none) (s : WolfCryptDpe) :
    wp (Call.run alg W env call) (fun a s' => Extends alg W s ⟨call, .ok a⟩ s')
      (fun x s' => Extends alg W s ⟨call, .error x⟩ s') s :=
  wp_mono (fun _ _ h => .inl ⟨hnone _, h⟩) (fun _ _ h => .inl ⟨hnone _, h⟩) (hkeeps s)

/-- **What a call does to the store.** -/
theorem call_extends (call : Call) (s : WolfCryptDpe) :
    wp (Call.run alg W env call) (fun a s' => Extends alg W s ⟨call, .ok a⟩ s')
      (fun x s' => Extends alg W s ⟨call, .error x⟩ s') s := by
  cases call with
  | randBytes len => exact extends_of_keeps (keeps_map _ (keeps_randBytes len)) (fun _ => rfl) s
  | hashInitialize => exact extends_of_keeps (keeps_pure _) (fun _ => rfl) s
  | deriveCdi measurement info => exact extends_of_keeps (keeps_map _ (keeps_lift _)) (fun _ => rfl) s
  | deriveKeyPair cdi label info => exact extends_of_keeps (keeps_map _ (keeps_lift _)) (fun _ => rfl) s
  | deriveKeyPairExported handle label info =>
    exact extends_of_keeps (keeps_map _ (keeps_deriveKeyPairExported handle label info)) (fun _ => rfl) s
  | setAliasKey privKey pubKey => exact extends_of_keeps (keeps_map _ (keeps_setAliasKey privKey pubKey)) (fun _ => rfl) s
  | signWithAlias data => exact extends_of_keeps (keeps_map _ (keeps_signWithAlias data)) (fun _ => rfl) s
  | signWithDerived data privKey pubKey => exact extends_of_keeps (keeps_map _ (keeps_lift _)) (fun _ => rfl) s
  | deriveExportedCdi measurement info =>
    refine wp_map.2 (wp_mono (fun handle s' h => ?_) (fun x s' h => ?_) (export_store measurement info s))
    · exact .inr ⟨((measurement, info), handle), rfl, h⟩
    · exact .inl ⟨rfl, h⟩

theorem step_extends {s s' : WolfCryptDpe} {e : Option Event} (h : Step alg W s e s') :
    ∃ event, e = some event ∧ Extends alg W s event s' := by
  obtain ⟨call, env, hrun⟩ := h
  have hcall := @call_extends alg W env call s
  unfold wp at hcall
  split at hrun
  · rename_i a t hok
    rw [hok] at hcall
    rw [hrun.2]
    exact ⟨_, hrun.1, hcall⟩
  · rename_i x t herror
    rw [herror] at hcall
    rw [hrun.2]
    exact ⟨_, hrun.1, hcall⟩

/-! ## Runs -/

/-- The store of an instance with the events `u` behind it: what was exported in their course, with CDIs that differ and
within the limit. -/
structure Records (alg : SignatureAlgorithm) (W : WolfCrypt) (u : List Event) (s : WolfCryptDpe) : Prop where
  slots : s.exportCdiSlots = (u.filterMap Event.exported).map (slotOf alg W)
  room : s.exportCdiSlots.length ≤ maxCdiHandles
  distinct : (s.exportCdiSlots.map Prod.fst).Nodup

/-- **The store is the record of the exports.** -/
theorem records_run {devId : Int} {u : List Event} {s : WolfCryptDpe} (h : Trace (Step alg W) (.new devId) u s) :
    Records alg W u s := by
  have hnew : Records alg W [] (.new devId) := ⟨rfl, Nat.zero_le _, List.nodup_nil⟩
  refine h.rel (R := Records alg W) hnew ?_
  rintro u m e m' ⟨hslots, hroom, hdistinct⟩ hstep
  obtain ⟨event, rfl, ⟨hnone, hsame⟩ | ⟨x, hx, hlt, hnew, hmore⟩⟩ := step_extends hstep
  · refine ⟨?_, ?_, ?_⟩
    · rw [hsame, hslots, List.filterMap_append]
      simp [hnone]
    · rw [hsame]
      exact hroom
    · rw [hsame]
      exact hdistinct
  · refine ⟨?_, ?_, ?_⟩
    · rw [hmore, hslots, List.filterMap_append]
      simp [hx]
    · rw [hmore, List.length_append]
      exact hlt
    · rw [hmore, List.map_append]
      refine List.nodup_append.2 ⟨hdistinct, List.pairwise_singleton _ _, ?_⟩
      rintro a ha b hb rfl
      rw [List.mem_singleton.1 hb] at ha
      exact hnew ha

/-! ## Looking a handle up -/

theorem foldl_found_of_notMem {handle : Handle} : ∀ (slots : List (Bytes × Handle)) (found : Option Bytes),
    handle ∉ slots.map Prod.snd →
    slots.foldl (fun found slot => if slot.2 = handle then some slot.1 else found) found = found
  | [], _, _ => rfl
  | slot :: slots, found, h => by
    rw [List.map_cons, List.mem_cons, not_or] at h
    rw [List.foldl_cons, if_neg (Ne.symm h.1)]
    exact foldl_found_of_notMem slots found h.2

theorem findSlot_of_mem {handle : Handle} {cdi : Bytes} {slots : List (Bytes × Handle)}
    (hdistinct : (slots.map Prod.snd).Nodup) (h : (cdi, handle) ∈ slots) : findSlot handle slots = some cdi := by
  obtain ⟨before, after, rfl⟩ := List.append_of_mem h
  have hafter : handle ∉ after.map Prod.snd := by
    rw [List.map_append, List.map_cons] at hdistinct
    exact (List.nodup_cons.1 (List.nodup_append.1 hdistinct).2.1).1
  unfold findSlot
  rw [List.foldl_append, List.foldl_cons, if_pos rfl]
  exact foldl_found_of_notMem after _ hafter

theorem exported_keyPair {s : WolfCryptDpe} {handle : Handle} {cdi : Bytes} (env : Env) (label info : Bytes)
    (h : findSlot handle s.exportCdiSlots = some cdi) :
    (deriveKeyPairExported alg W env handle label info).run s = (deriveKeyPair alg W env cdi label info).run s := by
  unfold deriveKeyPairExported
  rw [EStateM.run_bind, EStateM.run_get]
  dsimp only
  rw [h]
  rfl

theorem exported_refused {s : WolfCryptDpe} {handle : Handle} (env : Env) (label info : Bytes)
    (h : findSlot handle s.exportCdiSlots = none) : (deriveKeyPairExported alg W env handle label info).run s
      = .error (.error .invalidExportedCdiHandle) s := by
  unfold deriveKeyPairExported
  rw [EStateM.run_bind, EStateM.run_get]
  dsimp only
  rw [h]
  rfl

theorem nodup_of_length_le_one {α : Type} {l : List α} (h : l.length ≤ 1) : l.Nodup := by
  match l, h with
  | [], _ => exact List.nodup_nil
  | [a], _ => exact List.pairwise_singleton _ a

end

/-- **The exported CDIs of an instance, after any run.**  They are within the limit and all different, and a failing export
leaves them as they are.  A handle that an export of the run gave leads to the keys of the CDI that is derived from its
measurement and info, and every other handle is refused.  With room for one CDI, handles cannot clash, whatever the
generator returns. -/
theorem exported_store_run (alg : SignatureAlgorithm) (W : WolfCrypt) (devId : Int) (u : List Event) (s : WolfCryptDpe)
    (hrun : Trace (Step alg W) (.new devId) u s) :
    s.exportCdiSlots.length ≤ maxCdiHandles ∧ (s.exportCdiSlots.map Prod.fst).Nodup ∧
    (∀ env measurement info e s', (deriveExportedCdi alg W env measurement info).run s = .error e s' →
      s'.exportCdiSlots = s.exportCdiSlots) ∧
    (∀ measurement info handle, ⟨.deriveExportedCdi measurement info, .ok (.handle handle)⟩ ∈ u →
      ∀ env env' cdi label info', hkdfDeriveCdi alg W env' measurement info = .ok cdi →
        (deriveKeyPairExported alg W env handle label info').run s = (deriveKeyPair alg W env cdi label info').run s) ∧
    ∀ handle, (∀ measurement info, ⟨.deriveExportedCdi measurement info, .ok (.handle handle)⟩ ∉ u) →
      ∀ env label info, (deriveKeyPairExported alg W env handle label info).run s
        = .error (.error .invalidExportedCdiHandle) s := by
  obtain ⟨hslots, hroom, hdistinct⟩ := records_run hrun
  have hhandles : (s.exportCdiSlots.map Prod.snd).Nodup := by
    apply nodup_of_length_le_one
    rw [List.length_map]
    exact hroom
  refine ⟨hroom, hdistinct, ?_, ?_, ?_⟩
  · intro env measurement info e s' h
    exact wp_error (E := fun _ s' => s'.exportCdiSlots = s.exportCdiSlots) (export_store measurement info s) h
  · intro measurement info handle hevent env env' cdi label info' hcdi
    refine exported_keyPair env label info' (findSlot_of_mem hhandles ?_)
    rw [hslots, hkdfDeriveCdi_ok hcdi]
    exact List.mem_map.2 ⟨((measurement, info), handle), List.mem_filterMap.2 ⟨_, hevent, rfl⟩, rfl⟩
  · intro handle hno env label info
    apply exported_refused
    apply foldl_found_of_notMem
    intro hmem
    -- a slot under the handle is there for an event that gave it
    rw [hslots, List.map_map] at hmem
    obtain ⟨⟨⟨measurement, info'⟩, handle'⟩, hx, rfl⟩ := List.mem_map.1 hmem
    obtain ⟨event, hevent, hexported⟩ := List.mem_filterMap.1 hx
    obtain ⟨call, outcome⟩ := event
    unfold Event.exported at hexported
    split at hexported
    · rename_i m i h hcall houtcome
      cases hexported
      cases hcall
      cases houtcome
      exact hno _ _ hevent
    · cases hexported

/-- A handle of sevens. -/
def Sample.handle : Handle := ⟨List.replicate 32 7, rfl⟩

def Sample.exporting : Event := ⟨.deriveExportedCdi [1] [2], .ok (.handle Sample.handle)⟩

/-- An instance with one CDI. -/
def Sample.full : WolfCryptDpe :=
  { (WolfCryptDpe.new softwareDrbgDevId).seeded with
    exportCdiSlots := [(cdiOf .bit256 Sample.wolfCrypt [1] [2], Sample.handle)] }

theorem exported_store_sample :
    let env := Sample.env 0 fun _ => (0, fun _ => 7)
    Trace (Step .bit256 Sample.wolfCrypt) (.new softwareDrbgDevId) [Sample.exporting] Sample.full ∧
    (deriveKeyPairExported .bit256 Sample.wolfCrypt env Sample.handle [3] [4]).run Sample.full
      = (deriveKeyPair .bit256 Sample.wolfCrypt env (cdiOf .bit256 Sample.wolfCrypt [1] [2]) [3] [4]).run Sample.full ∧
    (deriveKeyPairExported .bit256 Sample.wolfCrypt env ⟨List.replicate 32 8, rfl⟩ [3] [4]).run Sample.full
      = .error (.error .invalidExportedCdiHandle) Sample.full := by
  intro env
  have hstep : Step .bit256 Sample.wolfCrypt (.new softwareDrbgDevId) (some Sample.exporting) Sample.full :=
    ⟨.deriveExportedCdi [1] [2], env, rfl, rfl⟩
  obtain ⟨-, -, -, hvalid, hother⟩ := exported_store_run .bit256 Sample.wolfCrypt softwareDrbgDevId [Sample.exporting]
    Sample.full (.event hstep)
  refine ⟨.event hstep, hvalid [1] [2] Sample.handle (List.mem_singleton.2 rfl) env env _ [3] [4] rfl,
    hother _ (fun measurement info hmem => ?_) env [3] [4]⟩
  have hne : Answer.handle ⟨List.replicate 32 8, rfl⟩ ≠ .handle Sample.handle := by decide
  exact hne (Except.ok.inj (congrArg Event.outcome (List.mem_singleton.1 hmem)))

end Dpe
end Wolf
