import Ferrokey.Daemon.Handshake
import Ferrokey.Daemon.Stream
import Ferrokey.Machine.Refinement
import Mathlib.Data.List.InsertIdx

/-! # The life of the runtime broker

The serve loop takes turns until a stop is requested, and then every session gives up its
keys. A turn accepts, services, flushes and removes many clients at once; all of that is an
interleaving of the connects, messages and disconnects of the broker, so what those keep
holds of the loop.
-/

namespace Ferrokey.Daemon

open Uinput Protocol Machine Collections

namespace Runtime

/-- The runtime before its first client. -/
def start (answer : ℕ → Option String) (maxConnections maxHeldKeys : ℕ) : Runtime :=
  ⟨⟨.new answer maxHeldKeys⟩, [], maxConnections, maxHeldKeys⟩

/-- The turns until a stop is requested; `none` is the panic of one of them. -/
def serveLoop (rt : Runtime) (turns : List Turn) : Option Runtime := turns.foldlM serveTurn rt

/-- Every session gives up its keys and the device releases them: the device, the sessions,
the number of keys, and how many of their releases failed. -/
def releaseSessions (d : RealDevice) : List SessionSlot → RealDevice × List SessionSlot × ℕ × ℕ
  | [] => (d, [], 0, 0)
  | slot :: slots =>
    let h := slot.session.drainHeld
    let r := KeyDevice.releaseKeys d h.1
    let rest := releaseSessions r.1 slots
    (rest.1, { slot with session := h.2 } :: rest.2.1, h.1.length + rest.2.2.1,
      r.2.length + rest.2.2.2)

/-- What follows the last turn, with the keys that were released and the failures. -/
def shutdown (rt : Runtime) : Runtime × ℕ × ℕ :=
  let r := releaseSessions rt.device rt.sessions
  ({ rt with device := r.1, sessions := r.2.1 }, r.2.2)

/-- The device and the sessions of a runtime, without sockets and replies. -/
def broker (rt : Runtime) : Broker := ⟨rt.device, rt.sessions.map SessionSlot.session⟩

/-- What a turn does to one client: it is accepted, serviced, flushed or removed. -/
structure Inductive (P : Runtime → Prop) : Prop where
  accept : ∀ rt fd, P rt → rt.sessions.length < rt.maxConnections →
    P { rt with sessions := rt.sessions ++ [.new fd (.new rt.maxHeldKeys)] }
  service : ∀ rt i slot io, P rt → rt.sessions[i]? = some slot →
    P { rt with
      device := (slot.service rt.device io).2.1
      sessions := rt.sessions.set i (slot.service rt.device io).1 }
  flush : ∀ rt i slot io, P rt → rt.sessions[i]? = some slot →
    P { rt with sessions := rt.sessions.set i (slot.flush io).1 }
  remove : ∀ rt rt' i, P rt → rt.remove i = some rt' → P rt'

namespace Inductive

variable {P : Runtime → Prop} {rt rt' : Runtime}

theorem acceptPending (hp : Inductive P) (h : P rt) (ps : List Pending) :
    P (rt.acceptPending ps) := by
  induction ps generalizing rt with
  | nil => exact h
  | cons p ps ih =>
    rw [Runtime.acceptPending]
    split
    · exact ih h
    next hroom =>
    split
    · exact ih (hp.accept rt p.fd h (Nat.lt_of_not_le hroom))
    · exact ih h

theorem serviceAt (hp : Inductive P) (io : ℕ → ClientIo) {acc : Runtime × List (ℕ × String)}
    (h : P acc.1) (i : ℕ) : P (Runtime.serviceAt io acc i).1 := by
  cases hs : acc.1.sessions[i]? with
  | none => cases hr : (io i).revents <;> simpa [Runtime.serviceAt, hs, hr] using h
  | some slot =>
    rw [serviceAt_eq hs]
    exact hp.service acc.1 i slot (io i) h hs

theorem flushAt (hp : Inductive P) (io : ℕ → ClientIo) {acc : Runtime × List (ℕ × String)}
    (h : P acc.1) (i : ℕ) : P (Runtime.flushAt io acc i).1 := by
  cases hs : acc.1.sessions[i]? with
  | none => simpa [Runtime.flushAt, hs] using h
  | some slot =>
    rw [flushAt_eq hs]
    exact hp.flush acc.1 i slot (io i) h hs

theorem passes (hp : Inductive P) (h : P rt) (turn : Turn) : P (rt.passes turn).1 := by
  have hservice : P (servicePass turn.io rt.sessions.length (rt.acceptPending turn.pending)).1 :=
    List.foldlRecOn (motive := fun acc : Runtime × List (ℕ × String) => P acc.1) _ _
      (hp.acceptPending h turn.pending) fun _ hacc i _ => hp.serviceAt turn.io hacc i
  exact List.foldlRecOn (motive := fun acc : Runtime × List (ℕ × String) => P acc.1) _ _
    hservice fun _ hacc i _ => hp.flushAt turn.io hacc i

theorem removeEach (hp : Inductive P) {is : List ℕ} (h : P rt) (hr : rt.removeEach is = some rt') :
    P rt' := by
  induction is generalizing rt with
  | nil =>
    cases hr
    exact h
  | cons i is ih =>
    obtain ⟨next, hnext, hrest⟩ := Option.bind_eq_some_iff.mp hr
    exact ih (hp.remove rt next i h hnext) hrest

/-- What every such step keeps is kept by the serve loop. -/
theorem serveLoop (hp : Inductive P) {turns : List Turn} (h : P rt)
    (hl : rt.serveLoop turns = some rt') : P rt' :=
  foldlM_invariant P (fun _ turn _ ha ht => hp.removeEach (hp.passes ha turn) ht) h hl

end Inductive

end Runtime

section Matching

variable {i : ℕ} {slot : SessionSlot} {sessions : List ClientSession}

/-- The messages of one read are messages of its session. -/
theorem processMessages_leads (h : sessions[i]? = some slot.session) (d : RealDevice)
    (allowed : ℕ → Bool) (msgs : List Message) :
    Leads Broker.step ⟨d, sessions⟩
      ⟨(slot.processMessages d allowed msgs).2.1,
        sessions.set i (slot.processMessages d allowed msgs).1.session⟩ := by
  induction msgs generalizing slot d allowed sessions with
  | nil =>
    obtain ⟨hlt, hslot⟩ := List.getElem?_eq_some_iff.mp h
    refine .of_eq ?_
    rw [SessionSlot.processMessages, ← hslot, List.set_getElem_self hlt]
  | cons msg msgs ih =>
    obtain ⟨hs, hd, -⟩ := processOne_cases slot d (allowed 0) msg
    have hone : Leads Broker.step ⟨d, sessions⟩
        ⟨(slot.processOne d (allowed 0) msg).2.1,
          sessions.set i (slot.processOne d (allowed 0) msg).1.session⟩ := by
      refine .trans (.single _ (.message i (allowed 0) msg)) (.of_eq ?_)
      simp only [Broker.step, h, hs, hd]
    rw [SessionSlot.processMessages_cons]
    generalize slot.processOne d (allowed 0) msg = one at hone ⊢
    obtain ⟨slot', d', result⟩ := one
    cases result with
    | some result => exact hone
    | none =>
      have hi : (sessions.set i slot'.session)[i]? = some slot'.session :=
        List.getElem?_set_self (List.getElem?_eq_some_iff.mp h).1
      have hrest := ih hi d' fun n => allowed (n + 1)
      rw [List.set_set] at hrest
      exact hone.trans hrest

theorem service_leads (h : sessions[i]? = some slot.session) (d : RealDevice) (io : ClientIo) :
    Leads Broker.step ⟨d, sessions⟩
      ⟨(slot.service d io).2.1, sessions.set i (slot.service d io).1.session⟩ := by
  rcases slot.service_cases d io with ⟨-, hd, hs, -⟩ | ⟨decoder, msgs, -, hservice, -⟩
  · obtain ⟨hlt, hslot⟩ := List.getElem?_eq_some_iff.mp h
    rw [hd, hs, ← hslot, List.set_getElem_self hlt]
    exact .refl _
  · rw [hservice]
    exact @processMessages_leads i { slot with decoder := decoder } sessions h d io.allowed msgs

/-- What happens to one client is a run of the broker. -/
theorem leads_inductive (b : Broker) :
    Runtime.Inductive fun rt => Leads Broker.step b rt.broker := by
  have hsession : ∀ (rt : Runtime) (i : ℕ) (slot : SessionSlot), rt.sessions[i]? = some slot →
      (rt.sessions.map SessionSlot.session)[i]? = some slot.session := by
    intro rt i slot h
    rw [List.getElem?_map, h]
    rfl
  constructor
  · rintro rt fd h -
    refine h.trans (.trans (.single _ (.connect rt.maxHeldKeys)) (.of_eq ?_))
    simp [Runtime.broker, Broker.step, SessionSlot.new]
  · intro rt i slot io h hs
    refine h.trans ((service_leads (hsession rt i slot hs) rt.device io).trans (.of_eq ?_))
    simp only [Runtime.broker, List.map_set]
  · intro rt i slot io h hs
    obtain ⟨hlt, hslot⟩ := List.getElem?_eq_some_iff.mp (hsession rt i slot hs)
    refine h.trans (.of_eq ?_)
    simp only [Runtime.broker, List.map_set, (slot.flush_frame io).1, ← hslot]
    rw [List.set_getElem_self hlt]
  · intro rt rt' i h hr
    unfold Runtime.remove at hr
    split at hr
    · cases hr
    next slot hs =>
    cases hr
    refine h.trans (.trans (.single _ (.disconnect i)) (.of_eq ?_))
    simp only [Broker.step, Runtime.broker, hsession rt i slot hs, List.eraseIdx_map]

/-- Whatever the serve loop does with the clients of its turns is an interleaving of connects,
messages and disconnects of the broker. -/
theorem serveLoop_refines {rt rt' : Runtime} {turns : List Turn}
    (h : rt.serveLoop turns = some rt') :
    ∃ events, run Broker.step rt.broker events = rt'.broker :=
  (leads_inductive rt.broker).serveLoop (.refl _) h

end Matching

/-- A vector of sessions never grows past the limit. -/
theorem bounded_inductive (n : ℕ) :
    Runtime.Inductive fun rt => rt.maxConnections = n ∧ rt.sessions.length ≤ n := by
  constructor
  · rintro rt fd ⟨rfl, -⟩ hroom
    refine ⟨rfl, ?_⟩
    rw [List.length_append, List.length_singleton]
    exact hroom
  · rintro rt i slot io h -
    simpa using h
  · rintro rt i slot io h -
    simpa using h
  · rintro rt rt' i ⟨hn, h⟩ hr
    unfold Runtime.remove at hr
    split at hr
    · cases hr
    cases hr
    exact ⟨hn, (List.length_eraseIdx_le _ _).trans h⟩

section Shutdown

/-- The keys of the sessions, in the order they are released at the shutdown. -/
def Runtime.heldKeys (rt : Runtime) : List UInt16 :=
  rt.sessions.flatMap fun slot => slot.session.held.elems

/-- The shutdown releases the key of every session once, and leaves nothing held, be it on the
ledger, by a session or in the stream of events. -/
structure CleanShutdown (rt : Runtime) : Prop where
  log : rt.shutdown.1.broker.log = rt.broker.log ++ rt.heldKeys.map (fun code => ⟨code, 0⟩)
  wellFormed : WellFormed (rt.shutdown.1.broker.log.map InputEvent.stroke)
  up : leftDown (rt.shutdown.1.broker.log.map InputEvent.stroke) = ∅
  ledger : rt.shutdown.1.broker.ledger = ∅
  sessions : ∀ slot ∈ rt.shutdown.1.sessions, slot.session.held = .new
  released : rt.shutdown.2.1 = rt.device.dev.heldCount
  failures : rt.shutdown.2.2 = 0

variable {d : UinputDevice} {slots : List SessionSlot}

/-- Releasing distinct held keys fails at none of them while every write succeeds. -/
theorem releaseKeys_errors (hw : ∀ n, d.fd.answer n = none) {codes : List UInt16}
    (hn : codes.Nodup) (hh : ∀ code ∈ codes, code.toUInt32 ∈ d.ledger.held) :
    (d.releaseKeys codes).2 = [] := by
  induction codes generalizing d with
  | nil => rfl
  | cons code codes ih =>
    obtain ⟨hc, hn⟩ := List.nodup_cons.mp hn
    obtain ⟨h, hh⟩ := List.forall_mem_cons.mp hh
    rw [UinputDevice.releaseKeys, HeldLedger.keyUp_eq_ok_iff.mpr ⟨h, rfl⟩]
    dsimp only
    rw [UinputDevice.emit_of_answer (hw _)]
    refine ih hw hn fun code' hm => BTreeSet.mem_remove.mpr ⟨fun he => hc ?_, hh code' hm⟩
    exact UInt16.toUInt32_inj.mp he ▸ hm

/-- The sessions that own a ledger hold as many keys as are on it. -/
theorem Owned.length_eq {sessions : List ClientSession} (p : Owned d sessions) :
    (sessions.flatMap fun s => s.held.elems).length = d.ledger.held.len := by
  have hmem : ∀ s : ClientSession, ∀ c, c ∈ s.held.elems.map UInt16.toUInt32 ↔ c ∈ heldCodes s :=
    fun s c => List.mem_map
  have hnodup : (sessions.flatMap fun s => s.held.elems.map UInt16.toUInt32).Nodup := by
    refine List.nodup_flatMap.mpr ⟨fun s _ => ?_, ?_⟩
    · exact s.held.nodup.map fun _ _ h => UInt16.toUInt32_inj.mp h
    · refine (List.pairwise_map.mp p.disjoint).imp fun {s s'} h c hc hc' => ?_
      exact h c ((hmem s c).mp hc) ((hmem s' c).mp hc')
  have hperm := (List.perm_ext_iff_of_nodup hnodup d.ledger.held.nodup).mpr fun c => by
    rw [List.mem_flatMap, ← BTreeSet.mem_def]
    refine Iff.trans ?_ (p.mem_iff c).symm
    simp only [List.mem_map, exists_exists_and_eq_and]
    exact exists_congr fun s => and_congr_right fun _ => List.mem_map.symm.trans (hmem s c)
  rw [BTreeSet.len, ← hperm.length_eq]
  simp only [List.length_flatMap, List.length_map]

/-- While every write succeeds, the sessions that own the ledger empty it as they let go. -/
theorem releaseSessions_owned (hc : Coherent d)
    (ho : Owned d (slots.map SessionSlot.session)) :
    let r := Runtime.releaseSessions ⟨d⟩ slots
    let keys := slots.flatMap fun slot => slot.session.held.elems
    Coherent r.1.dev ∧ Owned r.1.dev [] ∧
      r.1.dev.fd.log = d.fd.log ++ keys.map (fun code => ⟨code, 0⟩) ∧
      (∀ slot ∈ r.2.1, slot.session.held = .new) ∧ r.2.2.1 = keys.length ∧ r.2.2.2 = 0 := by
  induction slots generalizing d with
  | nil => simpa [Runtime.releaseSessions] using ⟨hc, ho⟩
  | cons slot slots ih =>
    have ho : Owned d ([] ++ slot.session :: slots.map SessionSlot.session) := ho
    have hheld : ∀ code ∈ slot.session.held.elems, code.toUInt32 ∈ d.ledger.held := by
      intro code hm
      exact ho.subset (toUInt32_mem_heldCodes.mpr hm)
    have hlog := UinputDevice.releaseKeys_log hc.answers slot.session.held.nodup hheld
    obtain ⟨hcoherent, howned, hrest, hsessions, hreleased, hfailures⟩ :=
      ih (hc.releaseKeys slot.session.held.nodup hheld) ho.leave
    have herrors := releaseKeys_errors hc.answers slot.session.held.nodup hheld
    refine ⟨hcoherent, howned, ?_, ?_, ?_, ?_⟩
    · refine hrest.trans ?_
      rw [hlog, List.append_assoc, List.flatMap_cons, List.map_append]
    · rintro s (_ | ⟨_, hm⟩)
      · rfl
      · exact hsessions s hm
    · rw [List.flatMap_cons, List.length_append]
      exact congrArg (slot.session.held.elems.length + ·) hreleased
    · rw [Runtime.releaseSessions]
      simp only [ClientSession.drainHeld, KeyDevice.releaseKeys, RealDevice.releaseKeys, herrors]
      exact (Nat.zero_add _).trans hfailures

theorem Broker.Sound.cleanShutdown {rt : Runtime} (h : rt.broker.Sound) : CleanShutdown rt := by
  obtain ⟨hcoherent, howned, hlog, hsessions, hreleased, hfailures⟩ :=
    releaseSessions_owned h.coherent h.owned
  have hempty : ∀ c, c ∉ rt.shutdown.1.device.dev.ledger.held := by
    intro c hc
    obtain ⟨_, hm, -⟩ := (howned.mem_iff c).mp hc
    exact List.not_mem_nil hm
  constructor
  · exact hlog
  · exact hcoherent.wellFormed
  · refine Set.eq_empty_iff_forall_notMem.mpr fun code hcode => ?_
    exact hempty _ ((hcoherent.down code).mp hcode)
  · exact Set.eq_empty_iff_forall_notMem.mpr hempty
  · exact hsessions
  · refine hreleased.trans (Eq.trans ?_ h.owned.length_eq)
    rw [Runtime.broker, List.flatMap_map]
  · exact hfailures

end Shutdown

/-- While the kernel takes every write, any turns of the serve loop leave the sessions within
their limit as the owners of the ledger, and a shutdown leaves no key down. -/
theorem shutdown_of_serveLoop {maxConnections maxHeldKeys : ℕ} {turns : List Turn} {rt : Runtime}
    (h : (Runtime.start (fun _ => none) maxConnections maxHeldKeys).serveLoop turns = some rt) :
    rt.sessions.length ≤ maxConnections ∧ rt.broker.Sound ∧ CleanShutdown rt := by
  have hsound : rt.broker.Sound := by
    obtain ⟨events, hrun⟩ := (leads_inductive _).serveLoop (.refl _) h
    rw [← hrun]
    exact run_invariant Broker.Sound (Broker.new_sound maxHeldKeys) Broker.step_sound events
  refine ⟨?_, hsound, hsound.cleanShutdown⟩
  exact ((bounded_inductive maxConnections).serveLoop ⟨rfl, Nat.zero_le _⟩ h).2

/-- A client is accepted, greets, opens its session and presses `A`. -/
def acceptAndPress : List Turn :=
  [{ pending := [⟨5, true⟩]
     io := fun _ => ⟨none, .wouldBlock, fun _ => true, []⟩ },
   { pending := []
     io := fun _ => ⟨some false, .bytes ([0x46, 0x4B, 0x30, 0x31, 5, 0, 1, 2, 1, 0, 0x66] ++
       [0x46, 0x4B, 0x30, 0x31, 1, 0, 2] ++ [0x46, 0x4B, 0x30, 0x31, 3, 0, 0x10, 30, 0]),
       fun _ => true, []⟩ }]

theorem serveLoop_refines_acceptAndPress :
    ∃ rt events, (Runtime.start (fun _ => none) 1 16).serveLoop acceptAndPress = some rt ∧
      run Broker.step (Runtime.start (fun _ => none) 1 16).broker events = rt.broker := by
  have hloop : ((Runtime.start (fun _ => none) 1 16).serveLoop acceptAndPress).isSome := by decide
  obtain ⟨rt, hrt⟩ := Option.isSome_iff_exists.mp hloop
  obtain ⟨events, hrun⟩ := serveLoop_refines hrt
  exact ⟨rt, events, hrt, hrun⟩

theorem shutdown_of_serveLoop_acceptAndPress :
    ∃ rt, (Runtime.start (fun _ => none) 1 16).serveLoop acceptAndPress = some rt ∧
      rt.heldKeys = [30] ∧ CleanShutdown rt := by
  have hloop : ((Runtime.start (fun _ => none) 1 16).serveLoop acceptAndPress).map
      Runtime.heldKeys = some [30] := by decide
  obtain ⟨rt, hrt, hkeys⟩ := Option.map_eq_some_iff.mp hloop
  exact ⟨rt, hrt, hkeys, (shutdown_of_serveLoop hrt).2.2⟩

end Ferrokey.Daemon
