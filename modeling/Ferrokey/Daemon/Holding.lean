import Ferrokey.Daemon.Acceptance
import Ferrokey.Daemon.Dialogue

/-! # What a client's messages leave held

A session holds the keys that the messages it has accepted leave down, whatever the device does
and whoever else uses it. The messages it has accepted are the first ones of those that the
client has sent, and all of them when none is under way.
-/

namespace Ferrokey.Daemon

open Protocol Machine Framing

/-- The keys that are held after a message. -/
def heldAfter (held : Set UInt16) : Message → Set UInt16
  | .keyDown code => insert code held
  | .keyUp code => held \ {code}
  | .releaseAll => ∅
  | _ => held

/-- The keys that messages leave held. -/
def leftHeld (msgs : List Message) : Set UInt16 := msgs.foldl heldAfter ∅

theorem leftHeld_concat (msgs : List Message) (msg : Message) :
    leftHeld (msgs ++ [msg]) = heldAfter (leftHeld msgs) msg := by
  simp [leftHeld]

theorem leftHeld_append (msgs msgs' : List Message) :
    leftHeld (msgs ++ msgs') = msgs'.foldl heldAfter (leftHeld msgs) := by
  simp [leftHeld]

/-- Without a release of all keys, messages leave held what their key events leave down. -/
theorem foldl_heldAfter {msgs : List Message} (h : .releaseAll ∉ msgs) (held : Set UInt16) :
    msgs.foldl heldAfter held = leaves held (msgs.filterMap keyStroke) := by
  induction msgs generalizing held with
  | nil => rfl
  | cons msg msgs ih =>
    obtain ⟨hne, hn⟩ := not_or.mp (mt List.mem_cons.mpr h)
    rw [List.foldl_cons, ih hn]
    cases msg with
    | releaseAll => exact absurd rfl hne
    | _ => rfl

namespace ClientSession

def heldSet (s : ClientSession) : Set UInt16 := {code | code ∈ s.held}

end ClientSession

section Message

variable {s : ClientSession} {msg : Message}

/-- An outcome that closes leaves what is held, and any other one lets the message have its way. -/
def Heeds (s : ClientSession) (msg : Message) (r : ClientSession × RealDevice × Outcome) : Prop :=
  (r.2.2.Ends → r.1.heldSet = s.heldSet) ∧ (¬ r.2.2.Ends → r.1.heldSet = heldAfter s.heldSet msg)

theorem Heeds.closed {r : ClientSession × RealDevice × Outcome} (hout : r.2.2.Ends)
    (hs : r.1.heldSet = s.heldSet) : Heeds s msg r := ⟨fun _ => hs, fun h => absurd hout h⟩

theorem Heeds.done {r : ClientSession × RealDevice × Outcome} (hout : ¬ r.2.2.Ends)
    (hs : r.1.heldSet = heldAfter s.heldSet msg) : Heeds s msg r :=
  ⟨fun h => absurd h hout, fun _ => hs⟩

theorem withKey_heeds {d : RealDevice} {code : UInt16}
    {body : PhysicalKey → ClientSession × RealDevice × Outcome}
    (h : ∀ key, Heeds s msg (body key)) : Heeds s msg (withKey s d code body) := by
  unfold withKey
  split
  · exact .closed trivial rfl
  split
  · exact .closed trivial rfl
  split
  · exact .closed trivial rfl
  · exact h _

theorem processMessage_heeds (allowed : Bool) (s : ClientSession) (d : RealDevice)
    (msg : Message) : Heeds s msg (processMessage allowed s d msg) := by
  have hinsert (code : UInt16) : ({ s with held := s.held.insert code } : ClientSession).heldSet =
      insert code s.heldSet := by
    ext code'
    exact BTreeSet.mem_insert
  have hremove (code : UInt16) : ({ s with held := s.held.remove code } : ClientSession).heldSet =
      s.heldSet \ {code} := by
    ext code'
    exact BTreeSet.mem_remove.trans and_comm
  cases allowed with
  | false => exact .closed trivial rfl
  | true =>
    simp only [processMessage, Bool.not_true, Bool.false_eq_true, if_false]
    cases msg with
    | hello version name =>
      dsimp only
      split
      · exact .closed trivial rfl
      split
      · exact .closed trivial rfl
      · exact .done id rfl
    | openSession =>
      dsimp only
      split
      · exact .closed trivial rfl
      split
      · exact .closed trivial rfl
      · exact .done id rfl
    | keyDown code =>
      refine withKey_heeds fun key => ?_
      split
      · exact .closed trivial rfl
      split
      · exact .closed trivial rfl
      split
      · exact .done id (hinsert code)
      · exact .closed trivial rfl
    | keyUp code =>
      refine withKey_heeds fun key => ?_
      split
      · exact .closed trivial rfl
      split
      · exact .done id (hremove code)
      · exact .closed trivial rfl
    | keyRepeat code =>
      refine withKey_heeds fun key => ?_
      split
      · exact .closed trivial rfl
      split
      · exact .done id rfl
      · exact .closed trivial rfl
    | releaseAll =>
      dsimp only
      have hdrained : s.drainHeld.2.heldSet = ∅ := by
        ext code
        simp [ClientSession.drainHeld, ClientSession.heldSet]
      split
      · exact .closed trivial rfl
      split
      · exact .done id hdrained
      · exact .done id hdrained
    | ping nonce => exact .done id rfl
    | _ => exact .closed trivial rfl

end Message

/-- A session holds what the messages that it has accepted leave held: the first ones of those
that were processed, and all of them as long as it goes on. -/
def Holds (s : ClientSession) (processed : List Message) (goesOn : Prop) : Prop :=
  ∃ accepted, accepted <+: processed ∧ s.heldSet = leftHeld accepted ∧
    (goesOn → accepted = processed)

section Slot

variable {slot : SessionSlot} {processed : List Message}

theorem Holds.of_eq {s : ClientSession} {goesOn : Prop} (h : s.heldSet = leftHeld processed) :
    Holds s processed goesOn := ⟨processed, List.prefix_rfl, h, fun _ => rfl⟩

theorem processMessages_holds (h : slot.session.heldSet = leftHeld processed) (d : RealDevice)
    (allowed : ℕ → Bool) (msgs : List Message) :
    let r := slot.processMessages d allowed msgs
    Holds r.1.session (processed ++ messages (slot.processed d allowed msgs))
      (r.2.2.reason = none ∧ r.1.closeAfterFlush = false) := by
  induction msgs generalizing slot processed d allowed with
  | nil =>
    refine .of_eq ?_
    simpa [SessionSlot.processMessages, SessionSlot.processed, messages] using h
  | cons msg msgs ih =>
    obtain ⟨hends, hdone⟩ := processMessage_heeds (allowed 0) slot.session d msg
    rw [h, ← leftHeld_concat] at hdone
    obtain ⟨hsession, -, hcases⟩ := processOne_cases slot d (allowed 0) msg
    dsimp only
    rw [SessionSlot.processMessages_cons, SessionSlot.processed, messages_cons]
    generalize slot.processOne d (allowed 0) msg = one at hsession hcases ⊢
    obtain ⟨slot', d', result⟩ := one
    dsimp only at hsession
    rw [← hsession] at hends hdone
    obtain ⟨rfl, hgoes, -⟩ | ⟨result, rfl, hstops⟩ := hcases
    · simpa using ih (hdone hgoes) d' fun n => allowed (n + 1)
    · -- the reading ends with this message, which may have been accepted all the same
      by_cases hclosed : (processMessage (allowed 0) slot.session d msg).2.2.Ends
      · exact ⟨processed, List.prefix_append _ _, (hends hclosed).trans h,
          fun hgoes => absurd hgoes hstops⟩
      · exact .of_eq (hdone hclosed)

theorem service_holds (h : Holds slot.session processed (slot.closeAfterFlush = false))
    (d : RealDevice) {io : ClientIo} (hread : slot.closeAfterFlush = false →
      ∃ msgs, (slot.decoder.push (slot.taken io)).2 = .ok msgs) :
    let r := slot.service d io
    Holds r.1.session (processed ++ messages (slot.serviced d io))
      (r.2.2.reason = none ∧ r.1.closeAfterFlush = false) := by
  obtain ⟨accepted, hprefix, hheld, hall⟩ := h
  dsimp only
  rcases service_taken slot d io with
    ⟨-, hs, hnone⟩ | ⟨hopen, ⟨e, herr⟩ | ⟨msgs, -, hservice, hserviced⟩⟩
  · rw [hs, hnone]
    exact ⟨accepted, by simpa [messages] using hprefix, hheld,
      fun hgoes => by simpa [messages] using hall hgoes.2⟩
  · obtain ⟨msgs, hok⟩ := hread hopen
    rw [hok] at herr
    cases herr
  · rw [hservice, hserviced]
    obtain rfl := hall hopen
    have hpushed : ({ slot with decoder := (slot.decoder.push (slot.taken io)).1 } :
        SessionSlot).session.heldSet = leftHeld accepted := hheld
    exact processMessages_holds hpushed d io.allowed msgs

end Slot

namespace Dialogue

variable {e : Exchange} {dl : Dialogue}

/-- The slot holds what the messages that it has accepted leave held. -/
def SlotHolds (e : Exchange) (dl : Dialogue) : Prop :=
  ∀ slot, dl.slot = some slot → Holds slot.session e.processed (slot.closeAfterFlush = false)

theorem SlotHolds.serve (h : SlotHolds e dl) (hf : Faithful e dl) {slot : SessionSlot}
    (hslot : dl.slot = some slot) {turn : SlotTurn} (hdata : turn.io.read.data <+: dl.up) :
    SlotHolds (e ++ (dl.serve slot turn).2) (dl.serve slot turn).1 := by
  have hread : slot.closeAfterFlush = false →
      ∃ msgs, (slot.decoder.push (slot.taken turn.io)).2 = .ok msgs := by
    intro hopen
    obtain ⟨rest, hch, -⟩ := hf.up slot hslot hopen
    obtain ⟨up, hsplit⟩ := taken_prefix slot hdata
    rw [← hsplit] at hch
    obtain ⟨msgs, hok, -⟩ := push_of_channel hch
    exact ⟨msgs, hok⟩
  have hserviced := service_holds (h slot hslot) turn.atService hread
  obtain ⟨hmessages, -⟩ := entries_slotStep slot turn
  obtain ⟨hsession, hclosing⟩ :=
    SessionSlot.flush_frame (slot.service turn.atService turn.io).1 turn.io
  simp only [Dialogue.serve, hmessages]
  intro slot' hslot'
  obtain ⟨hreason, hr⟩ | hr := slotStep_cases slot turn
  · rw [hr] at hslot'
    cases hslot'
    obtain ⟨accepted, hprefix, hheld, hall⟩ := hserviced
    exact ⟨accepted, hprefix, by rw [hsession, hheld],
      fun hopen => hall ⟨hreason, hclosing.symm.trans hopen⟩⟩
  · rw [hr] at hslot'
    cases hslot'

theorem SlotHolds.step (h : SlotHolds e dl) (hf : Faithful e dl) (m : Move SlotTurn) :
    SlotHolds (e ++ (dl.step m).2) (dl.step m).1 := by
  have hquiet {e' : Exchange} {dl' : Dialogue} (hslot : dl'.slot = dl.slot)
      (hprocessed : e'.processed = []) : SlotHolds (e ++ e') dl' := by
    intro slot hs
    rw [Exchange.append_processed, hprocessed, List.append_nil]
    exact h slot (hslot ▸ hs)
  cases m with
  | send msg writes =>
    simp only [Dialogue.step]
    repeat' split
    all_goals exact hquiet rfl rfl
  | receive n read =>
    simp only [Dialogue.step]
    repeat' split
    all_goals exact hquiet rfl rfl
  | turn n turn =>
    simp only [Dialogue.step]
    cases hslot : dl.slot with
    | none => exact hquiet rfl rfl
    | some slot => exact h.serve hf hslot (over_data turn.io.read dl.up dl.client.isSome n)

theorem SlotHolds.start (fd maxHeldKeys : ℕ) : SlotHolds .none (Dialogue.start fd maxHeldKeys) := by
  rintro slot ⟨⟩
  refine .of_eq ?_
  ext code
  simp [ClientSession.heldSet, leftHeld, SessionSlot.new, ClientSession.new]

/-- What a client has sent decides what the slot holds. -/
def HeldBySent (e : Exchange) (dl : Dialogue) : Prop :=
  ∀ slot, dl.slot = some slot → ∃ accepted, accepted <+: e.sent ∧
    slot.session.heldSet = leftHeld accepted ∧
    (slot.closeAfterFlush = false → dl.up = [] → accepted = e.sent)

theorem SlotHolds.heldBySent (hs : SlotHolds e dl) (hf : Faithful e dl) : HeldBySent e dl := by
  intro slot hslot
  obtain ⟨accepted, hprefix, hheld, hall⟩ := hs slot hslot
  refine ⟨accepted, hprefix.trans hf.processed, hheld, fun hopen hup => ?_⟩
  obtain ⟨rest, hch, -⟩ := hf.up slot hslot hopen
  rw [hup] at hch
  exact (hall hopen).trans hch.got_eq

end Dialogue

end Ferrokey.Daemon
