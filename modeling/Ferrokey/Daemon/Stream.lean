import Ferrokey.Daemon.Broker

/-! # The event stream of the broker

As long as the kernel takes every write, the events on the device and the codes
on its ledger tell the same story: a key is down in the stream exactly when it
is on the ledger, and so exactly when one live session holds it.
-/

namespace Ferrokey.Daemon

open Uinput Protocol Machine

theorem stroke_values (code : UInt16) :
    InputEvent.stroke ⟨code, 1⟩ = .down code ∧ InputEvent.stroke ⟨code, 0⟩ = .up code ∧
      InputEvent.stroke ⟨code, 2⟩ = .again code := by
  simp [InputEvent.stroke]

/-- A device whose writes all succeed and whose stream agrees with its ledger. -/
structure Coherent (d : UinputDevice) : Prop where
  answers : ∀ n, d.fd.answer n = none
  capable : ∀ c ∈ d.ledger.held, ∃ code, isCapable code = true ∧ code.toUInt32 = c
  capped : d.ledger.held.len ≤ d.ledger.maxHeld
  values : ∀ e ∈ d.fd.log, e.value = 0 ∨ e.value = 1 ∨ e.value = 2
  wellFormed : WellFormed (d.fd.log.map InputEvent.stroke)
  down : ∀ code : UInt16,
    code ∈ leftDown (d.fd.log.map InputEvent.stroke) ↔ code.toUInt32 ∈ d.ledger.held

section

variable {s s' : ClientSession} {d d' : UinputDevice} {code : UInt16} {allowed : Bool}
  {msg : Message}

theorem Coherent.press (h : Coherent d) (hc : isCapable code = true)
    (hu : code.toUInt32 ∉ d.ledger.held) (hm : d.ledger.held.len < d.ledger.maxHeld) :
    Coherent ⟨d.fd.wrote code 1, d.ledger.pressed code.toUInt32⟩ := by
  have hup : code ∉ leftDown (d.fd.log.map InputEvent.stroke) := fun hd => hu ((h.down code).mp hd)
  constructor
  · exact h.answers
  · intro c hm
    rcases BTreeSet.mem_insert.mp hm with rfl | hm
    · exact ⟨code, hc, rfl⟩
    · exact h.capable c hm
  · exact (BTreeSet.len_insert hu).trans_le hm
  · simpa [Fd.wrote, or_imp, forall_and] using h.values
  · simp only [Fd.wrote, List.map_append, List.map_cons, List.map_nil, (stroke_values code).1]
    exact wellFormed_append_iff.mpr ⟨h.wellFormed, hup, trivial⟩
  · intro code'
    simp only [Fd.wrote, List.map_append, List.map_cons, List.map_nil, (stroke_values code).1,
      leftDown_append, leaves_cons, leaves_nil, Stroke.after, Set.mem_insert_iff, h.down,
      HeldLedger.pressed, BTreeSet.mem_insert, UInt16.toUInt32_inj]

theorem Coherent.again (h : Coherent d) (hh : code.toUInt32 ∈ d.ledger.held) :
    Coherent ⟨d.fd.wrote code 2, d.ledger⟩ := by
  constructor
  · exact h.answers
  · exact h.capable
  · exact h.capped
  · simpa [Fd.wrote, or_imp, forall_and] using h.values
  · simp only [Fd.wrote, List.map_append, List.map_cons, List.map_nil, (stroke_values code).2.2]
    exact wellFormed_append_iff.mpr ⟨h.wellFormed, (h.down code).mpr hh, trivial⟩
  · intro code'
    simp only [Fd.wrote, List.map_append, List.map_cons, List.map_nil, (stroke_values code).2.2,
      leftDown_append, leaves_cons, leaves_nil, Stroke.after, h.down]

theorem Coherent.releaseKeys (h : Coherent d) {codes : List UInt16} (hn : codes.Nodup)
    (hh : ∀ code ∈ codes, code.toUInt32 ∈ d.ledger.held) : Coherent (d.releaseKeys codes).1 := by
  have hlog := UinputDevice.releaseKeys_log h.answers hn hh
  have hmap : ((d.releaseKeys codes).1.fd.log).map InputEvent.stroke =
      d.fd.log.map InputEvent.stroke ++ codes.map .up := by
    rw [hlog, List.map_append, List.map_map]
    exact congrArg _ (List.map_congr_left fun code _ => (stroke_values code).2.1)
  obtain ⟨hlegal, hleaves⟩ := ups_legal hn fun code hm => (h.down code).mpr (hh code hm)
  constructor
  · simpa using h.answers
  · intro c hc
    exact h.capable c ((UinputDevice.mem_releaseKeys_ledger d codes c).mp hc).1
  · rw [UinputDevice.releaseKeys_maxHeld]
    exact (UinputDevice.releaseKeys_len_le d codes).trans h.capped
  · rw [hlog]
    simpa [or_imp, forall_and] using h.values
  · rw [hmap]
    exact wellFormed_append_iff.mpr ⟨h.wellFormed, hlegal⟩
  · intro code
    rw [hmap, leftDown_append, hleaves, h.down, UinputDevice.mem_releaseKeys_ledger]
    refine and_congr_right fun _ => ⟨fun hm code' hm' he => ?_, fun hm hm' => hm code hm' rfl⟩
    exact hm (UInt16.toUInt32_inj.mp he ▸ hm')

theorem Coherent.release (h : Coherent d) (hh : code.toUInt32 ∈ d.ledger.held) :
    Coherent ⟨d.fd.wrote code 0, d.ledger.released code.toUInt32⟩ := by
  have hr := h.releaseKeys (List.nodup_singleton code) (by simpa using hh)
  rwa [UinputDevice.releaseKeys_cons_held [] hh, UinputDevice.emit_of_answer (h.answers _)] at hr

/-- Every effect of a session whose keys are on the ledger keeps the device coherent. -/
theorem Effect.coherent (he : Effect allowed s d msg s' d') (h : Coherent d)
    (hs : ∀ code ∈ s.held, code.toUInt32 ∈ d.ledger.held) : Coherent d' := by
  cases he with
  | quiet => exact h
  | press _ hr _ => exact h.press hr.2.1 hr.2.2.2.2.1 hr.2.2.2.2.2
  | pressLost _ _ hw => simp [h.answers] at hw
  | release _ hr _ => exact h.release hr.2.2.2
  | releaseLost _ _ hw => simp [h.answers] at hw
  | again _ hr _ => exact h.again (hs _ hr.2.2)
  | againLost _ _ hw => simp [h.answers] at hw
  | releaseAll => exact h.releaseKeys s.held.nodup hs

end

namespace Broker

/-- The sessions own the ledger of a coherent device. -/
structure Sound (b : Broker) : Prop where
  owned : Owned b.device.dev b.sessions
  coherent : Coherent b.device.dev

theorem Sound.held {b : Broker} (h : b.Sound) {s : ClientSession} (hs : s ∈ b.sessions) :
    ∀ code ∈ s.held, code.toUInt32 ∈ b.device.dev.ledger.held :=
  fun _ hc => h.owned.agrees.2 s hs _ (toUInt32_mem_heldCodes.mpr hc)

theorem new_sound (maxHeldKeys : ℕ) : (new (fun _ => none) maxHeldKeys).Sound := by
  refine ⟨new_owned _ _, ?_⟩
  constructor <;> simp [new, UinputDevice.new, HeldLedger.new, Fd.fresh]

theorem step_sound (b : Broker) (e : Event) (h : b.Sound) : (b.step e).1.Sound := by
  have hw : ¬ WriteLost b e := by
    cases e with
    | message i allowed msg => exact fun hl => hl.2.2.2 (h.coherent.answers _)
    | connect n => exact id
    | disconnect i => exact id
  refine ⟨step_owned h.owned hw, ?_⟩
  cases e with
  | connect n => exact h.coherent
  | message i allowed msg =>
    cases hi : b.sessions[i]? with
    | none => rw [(step_absent hi allowed msg).1]; exact h.coherent
    | some s =>
      obtain ⟨s', d', he, hs⟩ := step_message hi allowed msg
      rw [hs]
      exact he.coherent h.coherent (h.held (List.mem_of_getElem? hi))
  | disconnect i =>
    cases hi : b.sessions[i]? with
    | none => rw [(step_absent hi false .ok).2]; exact h.coherent
    | some s =>
      rw [step_disconnect hi]
      exact h.coherent.releaseKeys s.held.nodup (h.held (List.mem_of_getElem? hi))

/-- A disconnect writes one release for each key of the leaving session and nothing else. -/
theorem Sound.disconnect_log {b : Broker} (h : b.Sound) {i : ℕ} {s : ClientSession}
    (hi : b.sessions[i]? = some s) :
    (b.step (.disconnect i)).1.log = b.log ++ s.held.elems.map (fun code => ⟨code, 0⟩) := by
  rw [step_disconnect hi]
  exact UinputDevice.releaseKeys_log h.coherent.answers s.held.nodup
    (h.held (List.mem_of_getElem? hi))

end Broker

/-- While every write succeeds, after any interleaving of connects, messages and
disconnects: the ledger is the disjoint union of the live sessions' keys, every held code
is capable, the ledger keeps its cap, the stream is well formed, and a disconnect would
release exactly the leaving session's keys. -/
theorem ownership_of_run (maxHeldKeys : ℕ) (events : List Event) :
    let b := run Broker.step (.new (fun _ => none) maxHeldKeys) events
    Partition b.ledger (b.sessions.map heldCodes) ∧
      (∀ c ∈ b.ledger, ∃ code, isCapable code = true ∧ code.toUInt32 = c) ∧
      (∀ s ∈ b.sessions, ∀ code ∈ s.held, isCapable code = true) ∧
      b.device.dev.heldCount ≤ b.device.dev.ledger.maxHeld ∧
      (∀ e ∈ b.log, e.value = 0 ∨ e.value = 1 ∨ e.value = 2) ∧
      WellFormed (b.log.map InputEvent.stroke) ∧
      ∀ i s, b.sessions[i]? = some s → (b.step (.disconnect i)).1.log =
        b.log ++ s.held.elems.map (fun code => ⟨code, 0⟩) := by
  intro b
  have h : b.Sound := run_invariant Broker.Sound (Broker.new_sound maxHeldKeys)
    Broker.step_sound events
  refine ⟨h.owned, h.coherent.capable, fun s hs code hc => ?_, h.coherent.capped,
    h.coherent.values, h.coherent.wellFormed, fun i s hi => h.disconnect_log hi⟩
  obtain ⟨code', hcap, he⟩ := h.coherent.capable _ (h.held hs code hc)
  exact UInt16.toUInt32_inj.mp he ▸ hcap

end Ferrokey.Daemon
