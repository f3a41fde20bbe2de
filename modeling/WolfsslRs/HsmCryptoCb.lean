import WolfsslRs.HsmNvm
import WolfsslRs.TryLock
/-!
# HsmCryptoCb — the registration of a client with wolfCrypt (`wolfhsm`, `cryptocb.rs`)

`register_cryptocb` claims a flag of the process, and only then writes the client into the table of wolfCrypt; the drop of
a guard empties the table's entry, and only then takes the flag down.  So the flag is a lock around the entry
(`Step.lock`), and the entry is the live guard's client as long as there is a live guard.
-/
namespace Wolf
namespace Hsm
namespace CryptoCb

/-- Where a registration is, from its call to the end of its guard's drop. -/
inductive Phase (Client : Type) where
  | idle
  /-- The compare-exchange was its own; the device is not registered yet. -/
  | claimed (client : Client)
  /-- `wc_CryptoCb_RegisterDevice` failed; the flag is not given back yet. -/
  | failed (code : Int)
  /-- The caller has a guard. -/
  | live (client : Client)
  /-- In the guard's drop: the device is unregistered, the flag is not given back yet. -/
  | unregistered

def Phase.holds {Client : Type} : Phase Client → Bool
  | .idle => false
  | _ => true

/-- The process: the flag `REGISTERED`, the entry of the table for `DEV_ID`, and where each registration is.  A thread
may have any number of them. -/
structure State (Agent Client : Type) where
  registered : Bool
  entry : Option Client
  phase : Agent → Phase Client

/-- What a caller sees: the answer of `register_cryptocb`, and the end of a drop. -/
inductive Event (Agent : Type) where
  | returned (a : Agent) (result : Except Error Unit)
  | dropped (a : Agent)

variable {Agent Client : Type} {s s' : State Agent Client} {e : Option (Event Agent)} {u : List (Event Agent)}
  {entry : Option Client}

/-- The flag, with those between raising it and taking it down. -/
def State.lock (s : State Agent Client) : TryLock Agent := ⟨s.registered, fun a => (s.phase a).holds⟩

theorem same_holder (hlock : s.lock.Sound) {a b : Agent} {p q : Phase Client} (ha : s.phase a = p) (hb : s.phase b = q)
    (hp : p.holds = true) (hq : q.holds = true) : a = b := by
  subst ha hb
  exact hlock.one a b hp hq

theorem idle_of_flag (hlock : s.lock.Sound) (hflag : s.registered = false) (a : Agent) : s.phase a = .idle := by
  have hout : (s.phase a).holds = false := hlock.nobody hflag a
  cases hphase : s.phase a with
  | idle => rfl
  | _ => rw [hphase] at hout; cases hout

variable [DecidableEq Agent]

/-- Before any registration; the entry is whatever others left. -/
def State.init (entry : Option Client) : State Agent Client := ⟨false, entry, fun _ => .idle⟩

def State.setPhase (s : State Agent Client) (a : Agent) (p : Phase Client) : State Agent Client :=
  { s with phase := Function.update s.phase a p }

/-- **One step of one registration.** -/
inductive Step : State Agent Client → Option (Event Agent) → State Agent Client → Prop
  | compareExchange {s : State Agent Client} (a : Agent) (client : Client) (hphase : s.phase a = .idle)
      (hflag : s.registered = false) : Step s none ({ s with registered := true }.setPhase a (.claimed client))
  | alreadyRegistered {s : State Agent Client} (a : Agent) (hphase : s.phase a = .idle) (hflag : s.registered = true) :
      Step s (some (.returned a (.error .alreadyRegistered))) s
  | registerDevice {s : State Agent Client} (a : Agent) (client : Client) (hphase : s.phase a = .claimed client) :
      Step s (some (.returned a (.ok ()))) ({ s with entry := some client }.setPhase a (.live client))
  -- a registration that fails leaves the entry, or has cleared it again
  | registerDeviceFails {s : State Agent Client} (a : Agent) (client : Client) (code : Int) (entry : Option Client)
      (hphase : s.phase a = .claimed client) (hcode : code ≠ 0) (hentry : entry = s.entry ∨ entry = none) :
      Step s none ({ s with entry := entry }.setPhase a (.failed code))
  | release {s : State Agent Client} (a : Agent) (code : Int) (hphase : s.phase a = .failed code) :
      Step s (some (.returned a (.error (.ffi code "wc_CryptoCb_RegisterDevice"))))
        ({ s with registered := false }.setPhase a .idle)
  | unRegisterDevice {s : State Agent Client} (a : Agent) (client : Client) (hphase : s.phase a = .live client) :
      Step s none ({ s with entry := none }.setPhase a .unregistered)
  | dropped {s : State Agent Client} (a : Agent) (hphase : s.phase a = .unregistered) :
      Step s (some (.dropped a)) ({ s with registered := false }.setPhase a .idle)

/-! ## The flag is a lock -/

theorem lock_setPhase (s : State Agent Client) (a : Agent) (p : Phase Client) :
    (s.setPhase a p).lock = ⟨s.registered, Function.update s.lock.inside a p.holds⟩ := by
  unfold State.lock State.setPhase
  congr 1
  exact Function.comp_update Phase.holds s.phase a p

/-- A step that keeps the flag, and its own place among its holders, is none of the lock. -/
theorem lock_setPhase_of_holds {a : Agent} {p : Phase Client} (hin : (s.phase a).holds = true) (hp : p.holds = true) :
    ({ s with entry := entry }.setPhase a p).lock = s.lock := by
  rw [lock_setPhase, hp, ← hin]
  unfold State.lock
  congr 1
  exact Function.update_eq_self a fun b => (s.phase b).holds

/-- **Each step is one of the lock.** -/
theorem Step.lock (h : Step s e s') : TryLock.Step s.lock e s'.lock := by
  cases h with
  | compareExchange a client hphase hflag =>
    rw [lock_setPhase]
    exact .enter none a hflag
  | alreadyRegistered a hphase hflag => exact .stay _ _
  | registerDevice a client hphase =>
    rw [lock_setPhase_of_holds (congrArg Phase.holds hphase) rfl]
    exact .stay _ _
  | registerDeviceFails a client code entry hphase hcode hentry =>
    rw [lock_setPhase_of_holds (congrArg Phase.holds hphase) rfl]
    exact .stay _ _
  | release a code hphase =>
    rw [lock_setPhase]
    exact .leave _ a (congrArg Phase.holds hphase)
  | unRegisterDevice a client hphase =>
    rw [lock_setPhase_of_holds (congrArg Phase.holds hphase) rfl]
    exact .stay _ _
  | dropped a hphase =>
    rw [lock_setPhase]
    exact .leave _ a (congrArg Phase.holds hphase)

theorem lock_sound (h : Trace Step (State.init entry) u s) : s.lock.Sound :=
  TryLock.sound_of_trace (h.image State.lock fun _ _ _ hstep => hstep.lock)

/-! ## The entry -/

theorem phase_setPhase_self (s : State Agent Client) (a : Agent) (p : Phase Client) : (s.setPhase a p).phase a = p := by
  simp [State.setPhase]

theorem phase_setPhase_of_ne {a b : Agent} (hab : b ≠ a) (s : State Agent Client) (p : Phase Client) :
    (s.setPhase a p).phase b = s.phase b := by
  simp [State.setPhase, hab]

theorem phase_setPhase {a b : Agent} {p q : Phase Client} (h : (s.setPhase a p).phase b = q) :
    b = a ∧ p = q ∨ b ≠ a ∧ s.phase b = q := by
  by_cases hab : b = a
  · subst hab
    exact .inl ⟨rfl, (phase_setPhase_self s b p).symm.trans h⟩
  · exact .inr ⟨hab, (phase_setPhase_of_ne hab s p).symm.trans h⟩

/-- **The entry as the holder of the flag knows it.** -/
structure Table (s : State Agent Client) : Prop where
  live : ∀ a client, s.phase a = .live client → s.entry = some client
  gone : ∀ a, s.phase a = .unregistered → s.entry = none

/-- A step that leaves the entry, to a place where nothing is known of it. -/
theorem Table.of_entry {a : Agent} {p : Phase Client} {flag : Bool} (h : Table s) (hlive : ∀ client, p ≠ .live client)
    (hgone : p ≠ .unregistered) : Table ({ s with registered := flag }.setPhase a p) where
  live b client hb := by
    rcases phase_setPhase hb with ⟨-, hp⟩ | ⟨-, hb⟩
    · exact absurd hp (hlive client)
    · exact h.live b client hb
  gone b hb := by
    rcases phase_setPhase hb with ⟨-, hp⟩ | ⟨-, hb⟩
    · exact absurd hp hgone
    · exact h.gone b hb

/-- A step of the holder, who alone knows the entry. -/
theorem Table.of_holder {a : Agent} {p : Phase Client} {entry : Option Client} (hlock : s.lock.Sound)
    (hin : (s.phase a).holds = true) (hlive : ∀ client, p = .live client → entry = some client)
    (hgone : p = .unregistered → entry = none) : Table ({ s with entry := entry }.setPhase a p) where
  live b client hb := by
    rcases phase_setPhase hb with ⟨-, hp⟩ | ⟨hne, hb⟩
    · exact hlive client hp
    · exact absurd (same_holder hlock hb rfl rfl hin) hne
  gone b hb := by
    rcases phase_setPhase hb with ⟨-, hp⟩ | ⟨hne, hb⟩
    · exact hgone hp
    · exact absurd (same_holder hlock hb rfl rfl hin) hne

theorem Step.table (hlock : s.lock.Sound) (h : Table s) (hstep : Step s e s') : Table s' := by
  cases hstep with
  | compareExchange a client hphase hflag => exact h.of_entry nofun nofun
  | alreadyRegistered a hphase hflag => exact h
  | registerDevice a client hphase =>
    refine .of_holder hlock (congrArg Phase.holds hphase) ?_ nofun
    rintro _ ⟨⟩
    rfl
  | registerDeviceFails a client code entry hphase hcode hentry =>
    exact .of_holder hlock (congrArg Phase.holds hphase) nofun nofun
  | release a code hphase => exact h.of_entry nofun nofun
  | unRegisterDevice a client hphase =>
    exact .of_holder hlock (congrArg Phase.holds hphase) nofun fun _ => rfl
  | dropped a hphase => exact h.of_entry nofun nofun

theorem table_of_run (h : Trace Step (State.init entry) u s) : Table s := by
  induction h with
  | refl => exact ⟨nofun, nofun⟩
  | tail h hstep ih => exact hstep.table (lock_sound h) ih

/-- The entry, if there is one, is that of a live guard. -/
def Settled (s : State Agent Client) : Prop := s.entry = none ∨ ∃ a client, s.phase a = .live client

theorem Settled.of_entry {a : Agent} {p : Phase Client} {flag : Bool} (h : Settled s)
    (hother : ∀ client, s.phase a ≠ .live client) : Settled ({ s with registered := flag }.setPhase a p) := by
  rcases h with hnone | ⟨b, client, hb⟩
  · exact .inl hnone
  · have hne : b ≠ a := by
      rintro rfl
      exact hother client hb
    exact .inr ⟨b, client, (phase_setPhase_of_ne hne _ p).trans hb⟩

theorem Step.settled (hlock : s.lock.Sound) (h : Settled s) (hstep : Step s e s') : Settled s' := by
  cases hstep with
  | compareExchange a client hphase hflag => exact h.of_entry fun _ => hphase ▸ nofun
  | alreadyRegistered a hphase hflag => exact h
  | registerDevice a client hphase => exact .inr ⟨a, client, phase_setPhase_self _ _ _⟩
  | registerDeviceFails a client code entry hphase hcode hentry =>
    rcases h with hnone | ⟨b, other, hb⟩
    · exact .inl (hentry.elim (fun h => h.trans hnone) id)
    · -- the claimant is the only holder of the flag, so there is no live guard
      have hab := same_holder hlock hb hphase rfl rfl
      rw [hab, hphase] at hb
      cases hb
  | release a code hphase => exact h.of_entry fun _ => hphase ▸ nofun
  | unRegisterDevice a client hphase => exact .inl rfl
  | dropped a hphase => exact h.of_entry fun _ => hphase ▸ nofun

/-- **Once a guard has been dropped**, the entry is that of a live guard or none. -/
theorem settled_of_run (h : Trace Step (State.init entry) u s) (hdrop : ∃ a, .dropped a ∈ u) : Settled s := by
  induction h with
  | refl =>
    obtain ⟨a, ha⟩ := hdrop
    cases ha
  | @tail u m s' e h hstep ih =>
    obtain ⟨a, ha⟩ := hdrop
    rcases List.mem_append.1 ha with hbefore | hnow
    · exact hstep.settled (lock_sound h) (ih ⟨a, hbefore⟩)
    · obtain rfl : e = some (.dropped a) := Option.mem_toList.1 hnow
      cases hstep with
      | dropped _ hphase => exact .inl ((table_of_run h).gone a hphase)

/-! ## Registering again -/

theorem registers (hflag : s.registered = false) {a : Agent} (hphase : s.phase a = .idle) (client : Client) :
    ∃ s', Trace Step s [.returned a (.ok ())] s' ∧ s'.phase a = .live client :=
  ⟨_, (Trace.silent (.compareExchange a client hphase hflag)).trans
    (Trace.event (.registerDevice a client (phase_setPhase_self _ _ _))), phase_setPhase_self _ _ _⟩

/-- Where no guard is live, whoever has the flag can give it back. -/
theorem gives_back (hlock : s.lock.Sound) (hnone : ∀ a client, s.phase a ≠ .live client) :
    ∃ v s', Trace Step s v s' ∧ s'.registered = false ∧ (∀ b, .returned b (.ok ()) ∉ v) ∧
      ((∀ b, s.phase b = .idle) → v = []) := by
  cases hflag : s.registered with
  | false => exact ⟨[], s, .refl, hflag, fun _ => List.not_mem_nil, fun _ => rfl⟩
  | true =>
    obtain ⟨a, ha⟩ := hlock.held_iff.1 hflag
    cases hphase : s.phase a with
    | idle =>
      have hidle : (s.phase a).holds = false := congrArg Phase.holds hphase
      exact absurd (hidle.symm.trans ha) nofun
    | claimed client =>
      have hfails := Step.registerDeviceFails a client (-1) s.entry hphase (by decide) (.inl rfl)
      have hrelease := Step.release a (-1) (phase_setPhase_self { s with entry := s.entry } a (.failed (-1)))
      exact ⟨_, _, (Trace.silent hfails).trans (Trace.event hrelease), rfl, by simp, fun h => by simp [h] at hphase⟩
    | failed code =>
      exact ⟨_, _, Trace.event (.release a code hphase), rfl, by simp, fun h => by simp [h] at hphase⟩
    | live client => exact absurd hphase (hnone a client)
    | unregistered =>
      exact ⟨_, _, Trace.event (.dropped a hphase), rfl, by simp, fun h => by simp [h] at hphase⟩

/-- **The guards of every run**: at most one is live, and the table's entry is its client; once guards have been dropped
and none is live, there is no entry; and then every registration can succeed, at once if no other is under way. -/
theorem cryptocb_guard_runs (h : Trace Step (State.init entry) u s) :
    (∀ a b c d, s.phase a = .live c → s.phase b = .live d → a = b) ∧
    (∀ a client, s.phase a = .live client → s.entry = some client) ∧
    ((∀ a client, s.phase a ≠ .live client) →
      ((∃ a, .dropped a ∈ u) → s.entry = none) ∧
      ∀ a client, ∃ v s', Trace Step s (v ++ [.returned a (.ok ())]) s' ∧ s'.phase a = .live client ∧
        (∀ b, .returned b (.ok ()) ∉ v) ∧ ((∀ b, s.phase b = .idle) → v = [])) := by
  refine ⟨fun a b c d ha hb => same_holder (lock_sound h) ha hb rfl rfl, (table_of_run h).live, fun hnone => ⟨?_, ?_⟩⟩
  · intro hdrop
    rcases settled_of_run h hdrop with hentry | ⟨a, client, ha⟩
    · exact hentry
    · exact absurd ha (hnone a client)
  · intro a client
    obtain ⟨v, m, hv, hflag, hothers, hat⟩ := gives_back (lock_sound h) hnone
    obtain ⟨s', hs', hlive⟩ := registers hflag (idle_of_flag (lock_sound (h.trans hv)) hflag a) client
    exact ⟨v, s', hv.trans hs', hlive, hothers, hat⟩

/-- Two registrations, over an entry that something else left: the second comes while the first is claimed, and again
after the first guard's drop, and has a guard then. -/
theorem cryptocb_guard_runs_two : ∃ s : State Bool Nat,
    Trace Step (.init (some 9)) [.returned true (.error .alreadyRegistered), .returned false (.ok ()), .dropped false] s ∧
      s.entry = none ∧ ∃ v s', Trace Step s (v ++ [.returned true (.ok ())]) s' ∧ s'.phase true = .live 2 := by
  have hclaimed := (Trace.refl (s := State.init (some 9))).tail (Step.compareExchange false 1 rfl rfl)
  have hlive := (hclaimed.tail (.alreadyRegistered true rfl rfl)).tail (.registerDevice false 1 rfl)
  have hrun := (hlive.tail (.unRegisterDevice false 1 rfl)).tail (.dropped false rfl)
  obtain ⟨-, -, hafter⟩ := cryptocb_guard_runs hrun
  obtain ⟨hentry, hagain⟩ := hafter fun a _ => by cases a <;> nofun
  obtain ⟨v, s', hv, hguard, -⟩ := hagain true 2
  exact ⟨_, hrun, hentry ⟨false, by simp⟩, v, s', hv, hguard⟩

end CryptoCb
end Hsm
end Wolf
