import Ferrokey.App.DaemonLink
import Ferrokey.Daemon.Connection

/-! # A keyboard and the session behind it

The driver of a keyboard sends its key events to the daemon over a connection. The bytes are under
way for a while, and the daemon reads them in parts and in its own time, among those of its other
clients. When none is under way, the session holds exactly the keys that the driver has depressed.
-/

namespace Ferrokey.App

open Machine Protocol Daemon Uinput

/-- The message that tells of a key event. -/
def message : Stroke PhysicalKey → Message
  | .down key => .keyDown (toLinuxCode key)
  | .up key => .keyUp (toLinuxCode key)
  | .again key => .keyRepeat (toLinuxCode key)

/-- Send messages one after the other, with what the socket answers to each. -/
def sends {τ : Type} : List Message → List (List WriteResult) → List (Move τ)
  | [], _ => []
  | msg :: msgs, writes => .send msg (writes.headD []) :: sends msgs writes.tail

/-- What happens next: a call of the driver, the greeting or a ping, or a move of the connection
that is not the driver's. -/
inductive SeatMove where
  | call (c : DriverCall) (writes : List (List WriteResult))
  | greet (name : String) (writes : List (List WriteResult))
  | ping (nonce : UInt32) (writes : List WriteResult)
  | receive (n : ℕ) (read : ReadResult)
  | turn (n : ℕ) (turn : Turn)

/-- A keyboard and its connection. -/
structure Seat where
  engine : KeyboardEngine
  connection : Connection

namespace Seat

/-- A keyboard whose connection the daemon has just accepted. -/
def new (engine : KeyboardEngine) {r : Roster} {id fd maxHeldKeys : ℕ}
    (h : r.slotOf id = some (.new fd (.new maxHeldKeys))) : Seat := ⟨engine, .start h⟩

/-- What a move does on the connection. -/
def moves (s : Seat) : SeatMove → List (Move Turn)
  | .call c writes => sends ((strokesOf (s.engine.step c).2).map message) writes
  | .greet name writes => sends [.hello protocolVersion name, .openSession] writes
  | .ping nonce writes => sends [.ping nonce] [writes]
  | .receive n read => [.receive n read]
  | .turn n turn => [.turn n turn]

def step (s : Seat) (m : SeatMove) : Seat × Exchange :=
  (⟨match m with
    | .call c _ => (s.engine.step c).1
    | _ => s.engine, run Connection.step s.connection (s.moves m)⟩,
    .total (outputs Connection.step s.connection (s.moves m)))

/-- A call of the driver has room for the keys that it presses, and the closings of a turn of the
daemon are ordered. -/
def Orderly (s : Seat) : SeatMove → Prop
  | .call c _ => s.engine.HasRoom c
  | .turn n turn => s.connection.Ordered (.turn n turn)
  | _ => True

end Seat

section Keys

/-- Keys under other names are left down alike. -/
theorem leaves_image {κ κ' : Type*} {f : κ → κ'} (hf : Function.Injective f) (held : Set κ)
    (strokes : List (Stroke κ)) :
    leaves (f '' held) (strokes.map (Stroke.map f)) = f '' leaves held strokes := by
  induction strokes generalizing held with
  | nil => rfl
  | cons stroke strokes ih =>
    have hafter : (stroke.map f).after (f '' held) = f '' stroke.after held := by
      cases stroke with
      | down key => exact (Set.image_insert_eq).symm
      | up key =>
        simp only [Stroke.map, Stroke.after]
        rw [Set.image_sdiff hf, Set.image_singleton]
      | again key => rfl
    rw [List.map_cons, leaves_cons, hafter]
    exact ih _

theorem filterMap_message (strokes : List (Stroke PhysicalKey)) :
    (strokes.map message).filterMap keyStroke = strokes.map (Stroke.map toLinuxCode) := by
  induction strokes with
  | nil => rfl
  | cons stroke strokes ih => cases stroke <;> exact congrArg _ ih

/-- The messages of key events leave held what the events leave down. -/
theorem foldl_message (held : Set PhysicalKey) (strokes : List (Stroke PhysicalKey)) :
    (strokes.map message).foldl heldAfter (toLinuxCode '' held) =
      toLinuxCode '' leaves held strokes := by
  have hkeys : Message.releaseAll ∉ strokes.map message := by
    intro hmem
    obtain ⟨stroke, -, hstroke⟩ := List.mem_map.mp hmem
    cases stroke <;> cases hstroke
  rw [foldl_heldAfter hkeys, filterMap_message, leaves_image toLinuxCode_injective]

end Keys

section Moves

variable {dl : Dialogue} {c : Connection} {e : Exchange}

theorem step_send_cases (dl : Dialogue) (msg : Message) (writes : List WriteResult) :
    let r := dl.step (.send msg writes)
    (dl.client.isSome = true ∧ r.2.sent = [msg]) ∨ r.1.client.isSome = false := by
  simp only [Dialogue.step]
  cases hclient : dl.client with
  | none => exact .inr (by simp [hclient])
  | some client =>
    cases hsend : Daemon.Client.send msg writes with
    | mk bytes result =>
      cases result with
      | ok u => exact .inl ⟨rfl, rfl⟩
      | error err => exact .inr rfl

/-- A client that is still there has sent all the messages. -/
theorem client_sends {msgs : List Message} {writes : List (List WriteResult)}
    (h : (run Dialogue.step dl (sends msgs writes)).client.isSome = true) :
    dl.client.isSome = true ∧
      (Exchange.total (outputs Dialogue.step dl (sends msgs writes))).sent = msgs := by
  induction msgs generalizing dl writes with
  | nil => exact ⟨h, rfl⟩
  | cons msg msgs ih =>
    rw [sends, run_cons] at h
    obtain ⟨hclient, hsent⟩ := ih h
    rcases step_send_cases dl msg (writes.headD []) with ⟨hbefore, hone⟩ | hnone
    · exact ⟨hbefore, congrArg₂ (· ++ ·) hone hsent⟩
    · rw [hclient] at hnone
      cases hnone

/-- Messages are sent to a slot among others as to one alone. -/
theorem dialogue_sends (c : Connection) (msgs : List Message) (writes : List (List WriteResult)) :
    (run Connection.step c (sends msgs writes)).dialogue =
        run Dialogue.step c.dialogue (sends msgs writes) ∧
      outputs Connection.step c (sends msgs writes) =
        outputs Dialogue.step c.dialogue (sends msgs writes) := by
  induction msgs generalizing c writes with
  | nil => exact ⟨rfl, rfl⟩
  | cons msg msgs ih =>
    obtain ⟨hrun, houts⟩ := ih (c.step (.send msg (writes.headD []))).1 writes.tail
    rw [Connection.dialogue_send] at hrun houts
    exact ⟨hrun, congrArg₂ List.cons rfl houts⟩

theorem connection_sends {msgs : List Message} {writes : List (List WriteResult)}
    (h : (run Connection.step c (sends msgs writes)).client.isSome = true) :
    c.client.isSome = true ∧
      (Exchange.total (outputs Connection.step c (sends msgs writes))).sent = msgs := by
  obtain ⟨hrun, houts⟩ := dialogue_sends c msgs writes
  rw [houts]
  exact client_sends (hrun ▸ h : (run Dialogue.step c.dialogue (sends msgs writes)).client.isSome)

/-- A client that is still there was there, and only it sends. -/
theorem client_other {m : Move Turn} (hm : ∀ msg writes, m ≠ .send msg writes)
    (h : (c.step m).1.client.isSome = true) :
    c.client.isSome = true ∧ (c.step m).2.sent = [] := by
  cases m with
  | send msg writes => exact absurd rfl (hm msg writes)
  | receive n read =>
    simp only [Connection.step, Connection.atClient, Dialogue.step] at h ⊢
    have hclient : c.dialogue.client = c.client := rfl
    rw [hclient] at h ⊢
    cases hc : c.client with
    | none => simp [hc, hclient] at h
    | some client =>
      refine ⟨rfl, ?_⟩
      dsimp only
      split <;> rfl
  | turn n turn =>
    simp only [Connection.step, Connection.serve] at h ⊢
    repeat' split at h
    all_goals exact ⟨h, rfl⟩

/-- The two ends know of each other what they should, and the slot holds what it should. -/
structure Connected (e : Exchange) (dl : Dialogue) : Prop where
  faithful : Dialogue.Faithful e dl
  holds : Dialogue.SlotHolds e dl

theorem Connected.run (h : Connected e dl) (moves : List (Move SlotTurn)) :
    Connected (e ++ .total (outputs Dialogue.step dl moves)) (run Dialogue.step dl moves) := by
  induction moves generalizing e dl with
  | nil =>
    rw [show e ++ Exchange.total (outputs Dialogue.step dl []) = e from Exchange.append_none e]
    exact h
  | cons m moves ih =>
    have hone : Connected (e ++ (dl.step m).2) (dl.step m).1 :=
      ⟨h.faithful.step m, h.holds.step h.faithful m⟩
    have hsplit : e ++ Exchange.total (outputs Dialogue.step dl (m :: moves)) =
        e ++ (dl.step m).2 ++ Exchange.total (outputs Dialogue.step (dl.step m).1 moves) := by
      ext <;> simp [outputs, Exchange.total]
    rw [hsplit]
    exact ih hone

/-- Moves of a connection, with the closings of their turns in order, keep it so. -/
theorem Connected.moves (h : Connected e c.dialogue) {moves : List (Move Turn)}
    (ho : Steps Connection.step Connection.Ordered c moves) :
    Connected (e ++ .total (outputs Connection.step c moves))
      (Machine.run Connection.step c moves).dialogue := by
  obtain ⟨moves', hrun, houts⟩ := run_refines Connection.step_refines ho
  rw [← hrun, ← houts]
  exact h.run moves'

theorem ordered_sends (c : Connection) (msgs : List Message) (writes : List (List WriteResult)) :
    Steps Connection.step Connection.Ordered c (sends msgs writes) := by
  induction msgs generalizing c writes with
  | nil => exact steps_nil c
  | cons msg msgs ih => exact steps_cons_iff.mpr ⟨trivial, ih _ _⟩

end Moves

namespace Seat

variable {e : Exchange} {s : Seat}

theorem Orderly.moves {m : SeatMove} (h : s.Orderly m) :
    Steps Connection.step Connection.Ordered s.connection (s.moves m) := by
  cases m with
  | call c writes => exact ordered_sends _ _ _
  | greet name writes => exact ordered_sends _ _ _
  | ping nonce writes => exact ordered_sends _ _ _
  | receive n read => exact steps_cons_iff.mpr ⟨trivial, steps_nil _⟩
  | turn n turn => exact steps_cons_iff.mpr ⟨h, steps_nil _⟩

/-- A client that is there has sent what leaves the depressed keys held. -/
structure InStep (e : Exchange) (s : Seat) : Prop where
  connected : Connected e s.connection.dialogue
  sent : s.connection.client.isSome = true →
    leftHeld e.sent = toLinuxCode '' s.engine.state.depressed.toSet

theorem InStep.step (h : InStep e s) {m : SeatMove} (ho : s.Orderly m) :
    InStep (e ++ (s.step m).2) (s.step m).1 := by
  refine ⟨h.connected.moves ho.moves, fun hclient => ?_⟩
  rw [Exchange.append_sent, leftHeld_append]
  cases m with
  | call c writes =>
    obtain ⟨hbefore, hsent⟩ := connection_sends hclient
    have hleaves := KeyboardEngine.leaves_step s.engine c ho
    have hcodes := foldl_message s.engine.state.depressed.toSet (strokesOf (s.engine.step c).2)
    rw [hleaves, ← hsent, ← h.sent hbefore] at hcodes
    exact hcodes
  | greet name writes =>
    obtain ⟨hbefore, hsent⟩ := connection_sends hclient
    rw [h.sent hbefore]
    exact congrArg (List.foldl heldAfter _) hsent
  | ping nonce writes =>
    obtain ⟨hbefore, hsent⟩ := connection_sends hclient
    rw [h.sent hbefore]
    exact congrArg (List.foldl heldAfter _) hsent
  | receive n read =>
    obtain ⟨hbefore, hsent⟩ := client_other (m := .receive n read) nofun hclient
    rw [h.sent hbefore]
    exact congrArg (List.foldl heldAfter _) ((List.append_nil _).trans hsent)
  | turn n turn =>
    obtain ⟨hbefore, hsent⟩ := client_other (m := .turn n turn) nofun hclient
    rw [h.sent hbefore]
    exact congrArg (List.foldl heldAfter _) ((List.append_nil _).trans hsent)

section Run

variable {r : Roster} {id fd maxHeldKeys : ℕ}
  (hnew : r.slotOf id = some (.new fd (.new maxHeldKeys)))

theorem InStep.new (settings : StateSettings) (repeatSettings : RepeatSettings) (layout : Layout) :
    InStep .none (.new (.new settings repeatSettings layout) hnew) := by
  have hstart : (Connection.start hnew).dialogue = .start fd maxHeldKeys := by
    rw [Connection.dialogue, Dialogue.start, ← hnew]
    rfl
  refine ⟨?_, fun _ => ?_⟩
  · rw [Seat.new, hstart]
    exact ⟨.start fd maxHeldKeys, .start fd maxHeldKeys⟩
  · have hempty : (KeyboardState.new settings).depressed.toSet = ∅ :=
      Set.eq_empty_iff_forall_notMem.mpr fun key => KeySet.mem_new
    exact (Set.image_eq_empty.mpr hempty).symm

/-- When no bytes are under way, the session holds exactly the keys that the driver has
depressed. -/
def Agrees (s : Seat) : Prop :=
  ∀ slot, s.connection.dialogue.slot = some slot → slot.closeAfterFlush = false →
    s.connection.client.isSome = true → s.connection.up = [] →
      slot.session.heldSet = toLinuxCode '' s.engine.state.depressed.toSet

theorem InStep.agrees (h : InStep e s) : s.Agrees := by
  intro slot hslot hopen hclient hup
  obtain ⟨accepted, -, hheld, hall⟩ :=
    h.connected.holds.heldBySent h.connected.faithful slot hslot
  rw [hheld, hall hopen hup, h.sent hclient]

/-- Whatever the calls of the driver, the parts in which the sockets take and give the bytes, the
turns of the daemon and its other clients: as long as the pressed keys have room and the closings
of the turns are ordered, the session holds what the driver has depressed whenever no bytes are
under way. -/
theorem agrees_of_run (settings : StateSettings) (repeatSettings : RepeatSettings)
    (layout : Layout) {ms : List SeatMove}
    (h : Steps step Orderly (.new (.new settings repeatSettings layout) hnew) ms) :
    Always step Agrees (.new (.new settings repeatSettings layout) hnew) ms := by
  refine always_of_steps (fun s => ∃ e, InStep e s) ⟨_, .new hnew settings repeatSettings layout⟩
    (fun s hs => hs.choose_spec.agrees) ?_ h
  rintro s m ⟨e, hs⟩ horderly
  exact ⟨_, hs.step horderly⟩

/-- A session is opened and a key is pressed, and the daemon reads twelve bytes at a time, while
its two other clients are removed. -/
def pressInParts : List SeatMove :=
  let own : ClientIo := ⟨some true, .bytes [], fun _ => true, [.accepted 100]⟩
  let turn : Turn := ⟨[], fun i => match i with
    | 0 => sending [0x46, 0x4B, 0x30, 0x31, 3, 0, 0x10, 30, 0]
    | 1 => sending [0x46, 0x4B, 0x30, 0x31, 1, 0, 2]
    | _ => own⟩
  [.greet "a" [[.accepted 100], [.accepted 3, .accepted 100]],
    .call (.action .down .a 0) [[.accepted 5, .accepted 100]], .turn 11 turn,
    .turn 11 ⟨[], fun _ => own⟩, .turn 11 ⟨[], fun _ => own⟩, .turn 11 ⟨[], fun _ => own⟩]

theorem agrees_of_run_pressInParts :
    let start : Seat := .new (.new ⟨true, 400000000, 16⟩ ⟨true, 500000000, 30000000⟩
      ⟨fun _ => none⟩) Connection.threeClients_slotOf
    Steps step Orderly start pressInParts ∧ Always step Agrees start pressInParts ∧
      (run step start pressInParts).connection.up = [] ∧
      ((run step start pressInParts).connection.dialogue.slot.map
        fun slot => slot.session.held.elems) = some [30] := by
  have hsteps : Steps step Orderly (.new (.new ⟨true, 400000000, 16⟩ ⟨true, 500000000, 30000000⟩
      ⟨fun _ => none⟩) Connection.threeClients_slotOf) pressInParts := by
    simp only [pressInParts, steps_cons_iff, Orderly, true_and, steps_nil, and_true]
    exact ⟨KeyboardState.steps_hasRoom (by decide) _, by decide⟩
  exact ⟨hsteps, agrees_of_run _ _ _ _ hsteps, by decide, by decide⟩

end Run

end Seat

end Ferrokey.App
