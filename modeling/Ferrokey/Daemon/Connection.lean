import Ferrokey.Daemon.Holding
import Ferrokey.Daemon.Roster

/-! # A client and the serve loop

The connection of one client to a daemon that serves any number of others. As long as the
closings of the turns are ordered, what happens on it is what happens between the client and its
slot alone, so what the two ends know of each other and what the session holds carries over.
-/

namespace Ferrokey.Daemon

open Protocol Machine

/-- A client's end of a connection, the bytes under way in it, and the daemon, unless it has
panicked. The client has been accepted under its number. -/
structure Connection where
  client : Option Client
  up : List UInt8
  server : Option Roster
  id : ℕ
  down : List UInt8
  known : ∀ r ∈ server, id < r.accepted

namespace Connection

variable {c : Connection} {r : Roster}

/-- The two ends and the bytes between them. -/
def dialogue (c : Connection) : Dialogue :=
  ⟨c.client, c.up, c.server.bind fun r => r.slotOf c.id, c.down⟩

/-- A client that the daemon has just accepted. -/
def start {id fd maxHeldKeys : ℕ} (h : r.slotOf id = some (.new fd (.new maxHeldKeys))) :
    Connection where
  client := some ⟨.new⟩
  up := []
  server := some r
  id := id
  down := []
  known := by
    rintro _ ⟨⟩
    exact r.known id (Roster.mem_of_slotOf h)

/-- What a turn of the daemon meets: of the client's bytes, its socket gives those that are under
way. -/
def share (c : Connection) (r : Roster) (n : ℕ) (turn : Turn) : Turn :=
  { turn with
    io := fun i =>
      if i = r.clients.idxOf c.id then
        { turn.io i with read := (turn.io i).read.over c.up c.client.isSome n }
      else turn.io i }

/-- The bytes that the daemon takes from the client's socket, and those that it puts there. -/
def taken (c : Connection) (r : Roster) (turn : Turn) : List UInt8 :=
  match r.slotOf c.id with
  | none => []
  | some slot => slot.taken (turn.io (r.clients.idxOf c.id))

def put (c : Connection) (r : Roster) (turn : Turn) : List UInt8 :=
  match r.slotOf c.id, (r.passes turn).slotOf c.id with
  | some slot, some slot' => slot'.stream.sent.drop slot.stream.sent.length
  | _, _ => []

def garbled (c : Connection) (r : Roster) (turn : Turn) : List CodecError :=
  match r.slotOf c.id with
  | none => []
  | some slot => Dialogue.garbled slot.decoder (c.taken r turn)

/-- A turn of the daemon. -/
def serve (c : Connection) (hr : c.server = some r) (turn : Turn) : Connection × Exchange :=
  match h : r.turn turn with
  | none => ({ c with server := none, known := nofun }, .none)
  | some (r', log) =>
    ({ c with
        up := c.up.drop (c.taken r turn).length
        server := some r'
        down := c.down ++ c.put r turn
        known := by
          rintro _ ⟨⟩
          exact (c.known r hr).trans_le (Roster.accepted_le h) },
      { Exchange.none with
        processed := messages (entriesOf c.id log)
        answers := answers (entriesOf c.id log)
        unreadable := c.garbled r turn })

/-- The client does at its end what it does with a slot of its own. -/
def atClient (c : Connection) (after : Dialogue × Exchange) : Connection × Exchange :=
  ({ c with client := after.1.client, up := after.1.up, down := after.1.down }, after.2)

def step (c : Connection) : Move Turn → Connection × Exchange
  | .send msg writes => c.atClient (c.dialogue.step (.send msg writes))
  | .receive n read => c.atClient (c.dialogue.step (.receive n read))
  | .turn n turn =>
    match h : c.server with
    | none => (c, .none)
    | some r => c.serve h (c.share r n turn)

/-- The closings of a turn are ordered. -/
def Ordered (c : Connection) : Move Turn → Prop
  | .send _ _ | .receive _ _ => True
  | .turn n turn => ∀ r ∈ c.server, (r.runtime.closings (c.share r n turn)).Ordered

instance (c : Connection) : (m : Move Turn) → Decidable (c.Ordered m)
  | .send _ _ | .receive _ _ => inferInstanceAs (Decidable True)
  | .turn n turn => inferInstanceAs (Decidable (∀ r ∈ c.server,
      (r.runtime.closings (c.share r n turn)).Ordered))

section Refinement

theorem atClient_dialogue {after : Dialogue × Exchange} (h : after.1.slot = c.dialogue.slot) :
    (c.atClient after).1.dialogue = after.1 := by
  obtain ⟨⟨client, up, slot, down⟩, e⟩ := after
  obtain rfl : slot = c.dialogue.slot := h
  rfl

theorem dialogue_send (c : Connection) (msg : Message) (writes : List WriteResult) :
    (c.step (.send msg writes)).1.dialogue = (c.dialogue.step (.send msg writes)).1 := by
  apply atClient_dialogue
  simp only [Dialogue.step]
  repeat' split
  all_goals rfl

theorem dialogue_receive (c : Connection) (n : ℕ) (read : ReadResult) :
    (c.step (.receive n read)).1.dialogue = (c.dialogue.step (.receive n read)).1 := by
  apply atClient_dialogue
  simp only [Dialogue.step]
  repeat' split
  all_goals rfl

/-- What the client and its slot have of a turn of the daemon. -/
theorem serve_dialogue (hr : c.server = some r) {turn : Turn} {out : Roster × List (ℕ × LogEntry)}
    (h : r.turn turn = some out) : ((c.serve hr turn).1.dialogue, (c.serve hr turn).2) =
      (⟨c.client, c.up.drop (c.taken r turn).length, out.1.slotOf c.id, c.down ++ c.put r turn⟩,
        { Exchange.none with
          processed := messages (entriesOf c.id out.2)
          answers := answers (entriesOf c.id out.2)
          unreadable := c.garbled r turn }) := by
  unfold serve
  split
  next hnone =>
    rw [h] at hnone
    cases hnone
  next hsome =>
    rw [h] at hsome
    cases hsome
    rfl

/-- A turn whose closings are ordered is for the client a turn of its slot alone. -/
theorem serve_refines {turn : Turn} (hr : c.server = some r)
    (ho : (r.runtime.closings turn).Ordered) {slot : SessionSlot} (hslot : r.slotOf c.id = some slot) :
    ∃ d d', c.dialogue.serve slot ⟨turn.io (r.clients.idxOf c.id), d, d'⟩ =
      ((c.serve hr turn).1.dialogue, (c.serve hr turn).2) := by
  obtain ⟨out, hturn, -, -, hstep⟩ := Roster.turn_slotOf ho
  obtain ⟨d', hd'⟩ := hstep c.id (Roster.mem_of_slotOf hslot)
  rw [hslot] at hd'
  refine ⟨(r.runtime.beforeService turn (r.clients.idxOf c.id)).device, d', ?_⟩
  rw [serve_dialogue hr hturn, Dialogue.serve, hd']
  simp only [dialogue, taken, put, garbled, hslot, (Roster.passes_slotOf _ hslot).2]

/-- For a client that is gone, a turn whose closings are ordered does nothing. -/
theorem serve_absent {turn : Turn} (hr : c.server = some r)
    (ho : (r.runtime.closings turn).Ordered) (hslot : r.slotOf c.id = none) :
    ((c.serve hr turn).1.dialogue, (c.serve hr turn).2) = (c.dialogue, .none) := by
  obtain ⟨out, hturn, -, hother, -⟩ := Roster.turn_slotOf ho
  have habsent : c.id ∉ r.clients := by
    intro hm
    have hlt := List.idxOf_lt_length_of_mem hm
    rw [Roster.slotOf, List.getElem?_eq_getElem (r.length_eq ▸ hlt)] at hslot
    cases hslot
  obtain ⟨hlog, hnone | ⟨hnew, -⟩⟩ := hother c.id habsent
  · rw [serve_dialogue hr hturn, hlog, hnone]
    simp [dialogue, taken, put, garbled, hslot, hr, messages, answers, Exchange.none]
  · exact absurd (c.known r hr) (Nat.not_lt.mpr hnew)

theorem dialogue_turn_absent (h : c.dialogue.slot = none) (n : ℕ) (turn : SlotTurn) :
    c.dialogue.step (.turn n turn) = (c.dialogue, .none) := by
  simp only [Dialogue.step, h]

/-- A move of a connection, with the closings of its turn in order, is a move between the client
and its slot. -/
theorem step_refines (c : Connection) (m : Move Turn) (h : c.Ordered m) :
    ∃ m', c.dialogue.step m' = ((c.step m).1.dialogue, (c.step m).2) := by
  cases m with
  | send msg writes => exact ⟨.send msg writes, Prod.ext (c.dialogue_send msg writes).symm rfl⟩
  | receive n read => exact ⟨.receive n read, Prod.ext (c.dialogue_receive n read).symm rfl⟩
  | turn n turn =>
    simp only [step]
    split
    next hnone =>
      have hslot : c.dialogue.slot = none := by rw [dialogue, hnone]; rfl
      exact ⟨.turn n ⟨turn.io 0, ⟨.new (fun _ => none) 0⟩, ⟨.new (fun _ => none) 0⟩⟩,
        dialogue_turn_absent hslot _ _⟩
    next r hr =>
      have ho := h r hr
      have hdialogue : c.dialogue.slot = r.slotOf c.id := by rw [dialogue, hr]; rfl
      cases hslot : r.slotOf c.id with
      | none =>
        rw [serve_absent hr ho hslot]
        exact ⟨.turn n ⟨turn.io 0, r.runtime.device, r.runtime.device⟩,
          dialogue_turn_absent (hdialogue.trans hslot) _ _⟩
      | some slot =>
        obtain ⟨d, d', hserve⟩ := serve_refines hr ho hslot
        refine ⟨.turn n ⟨turn.io (r.clients.idxOf c.id), d, d'⟩, ?_⟩
        rw [← hserve]
        simp only [Dialogue.step, hdialogue.trans hslot, share, if_true]
        rfl

theorem step_server (c : Connection) (m : Move Turn) (h : c.Ordered m) (hc : c.server.isSome) :
    (c.step m).1.server.isSome := by
  cases m with
  | send msg writes | receive n read => exact hc
  | turn n turn =>
    simp only [step]
    split
    next hnone =>
      rw [hnone] at hc
      cases hc
    next r hr =>
      obtain ⟨out, hturn, -⟩ := Roster.turn_slotOf (h r hr)
      unfold serve
      split
      next hnone =>
        rw [hturn] at hnone
        cases hnone
      · rfl

end Refinement

section Run

variable {id fd maxHeldKeys : ℕ} (h : r.slotOf id = some (.new fd (.new maxHeldKeys)))
  {ms : List (Move Turn)}

/-- As long as the closings of the turns are ordered, the two ends are faithful to each other, and
the slot holds what it should. -/
theorem faithful_of_run (ho : Steps step Ordered (start h) ms) :
    Dialogue.Faithful (.total (outputs step (start h) ms)) (run step (start h) ms).dialogue ∧
      Dialogue.SlotHolds (.total (outputs step (start h) ms)) (run step (start h) ms).dialogue := by
  have hstart : (start h).dialogue = .start fd maxHeldKeys := by
    rw [dialogue, Dialogue.start, ← h]
    rfl
  obtain ⟨ms', hrun, houts⟩ := run_refines step_refines ho
  rw [hstart] at hrun houts
  rw [← hrun, ← houts]
  refine outputs_invariant
    (fun es dl => Dialogue.Faithful (.total es) dl ∧ Dialogue.SlotHolds (.total es) dl)
    ⟨.start fd maxHeldKeys, .start fd maxHeldKeys⟩ (fun es dl m hdl => ?_) ms'
  rw [Exchange.total_concat]
  exact ⟨hdl.1.step m, hdl.2.step hdl.1 m⟩

theorem server_of_run (ho : Steps step Ordered (start h) ms) :
    (run step (start h) ms).server.isSome :=
  run_of_steps (fun c : Connection => c.server.isSome) rfl (fun c m hc hm => c.step_server m hm hc) ho

/-- However a client and the daemon take turns, whoever else the daemon serves, and whatever parts
of the bytes their sockets take and give: as long as the closings of the turns are ordered, the
daemon goes on, it processes a beginning of what the client sends, and the client receives a
beginning of what the daemon answers. -/
theorem delivered_of_run (ho : Steps step Ordered (start h) ms) :
    (run step (start h) ms).server.isSome ∧
      Dialogue.Delivered (.total (outputs step (start h) ms)) (run step (start h) ms).dialogue :=
  ⟨server_of_run h ho, (faithful_of_run h ho).1.delivered⟩

/-- Whatever becomes of the device, of the other clients and of the bytes on their way: as long as
the closings of the turns are ordered, a session holds the keys that the first of its client's
messages leave held, and when none is under way those that all of them leave. -/
theorem held_of_run (ho : Steps step Ordered (start h) ms) :
    (run step (start h) ms).server.isSome ∧
      Dialogue.HeldBySent (.total (outputs step (start h) ms)) (run step (start h) ms).dialogue :=
  ⟨server_of_run h ho, (faithful_of_run h ho).2.heldBySent (faithful_of_run h ho).1⟩

end Run

section Example

def threeClients : Roster := (((Roster.start (fun _ => none) 8 16).turn threeAccepted).get (by decide)).1

theorem threeClients_slotOf : threeClients.slotOf 2 = some (.new 7 (.new 16)) := by decide

/-- The third client presses a key, and the daemon reads twelve bytes at a time. Meanwhile the
others are removed, so that its slot moves to the front. -/
def pressAmongOthers : List (Move Turn) :=
  let own : ClientIo := ⟨some true, .bytes [], fun _ => true, [.accepted 100]⟩
  let turn : Turn := ⟨[], fun i => match i with
    | 0 => sending [0x46, 0x4B, 0x30, 0x31, 3, 0, 0x10, 30, 0]
    | 1 => sending [0x46, 0x4B, 0x30, 0x31, 1, 0, 2]
    | _ => own⟩
  [.send (.hello protocolVersion "a") [.accepted 100], .send .openSession [.accepted 3, .accepted 100],
    .send (.keyDown 30) [.accepted 5, .accepted 100], .turn 11 turn, .turn 11 ⟨[], fun _ => own⟩,
    .turn 11 ⟨[], fun _ => own⟩, .receive 100 (.bytes [])]

theorem ordered_pressAmongOthers :
    Steps step Ordered (start threeClients_slotOf) pressAmongOthers := by
  simp only [pressAmongOthers, steps_cons_iff, steps_nil]
  decide

theorem delivered_of_run_pressAmongOthers :
    (.total (outputs step (start threeClients_slotOf) pressAmongOthers) : Exchange) =
        ⟨[.hello 2 "a", .openSession, .keyDown 30], [.hello 2 "a", .openSession, .keyDown 30], [.ok],
          [.ok], []⟩ ∧
      Dialogue.Delivered (.total (outputs step (start threeClients_slotOf) pressAmongOthers))
        (run step (start threeClients_slotOf) pressAmongOthers).dialogue :=
  ⟨by decide, (delivered_of_run threeClients_slotOf ordered_pressAmongOthers).2⟩

theorem held_of_run_pressAmongOthers :
    ((run step (start threeClients_slotOf) pressAmongOthers).dialogue.slot.map
        fun slot => slot.session.held.elems) = some [30] ∧
      Dialogue.HeldBySent (.total (outputs step (start threeClients_slotOf) pressAmongOthers))
        (run step (start threeClients_slotOf) pressAmongOthers).dialogue :=
  ⟨by decide, (held_of_run threeClients_slotOf ordered_pressAmongOthers).2⟩

end Example

end Connection

end Ferrokey.Daemon
