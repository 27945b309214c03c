import Ferrokey.Daemon.Answers
import Ferrokey.Daemon.Handshake
import Ferrokey.Framing.Channel
import Ferrokey.Protocol.Fragmentation

/-! # A client and its slot

The two ends of a connection, with the bytes that are under way between them. Either socket may
take a part of what is written and give a part of what is there, and the two ends take turns in
any order. What one end gets is at any time the beginning of what the other one has sent.
-/

namespace Ferrokey.Daemon

open Protocol Machine Framing

section Client

/-- Write all bytes to a socket: those that it takes, and whether it takes all. -/
def writeAll (bytes : List UInt8) : List WriteResult → List UInt8 × Except String Unit
  | [] => ([], if bytes.isEmpty then .ok () else .error "Resource temporarily unavailable")
  | w :: ws =>
    if bytes.isEmpty then ([], .ok ())
    else
      match w with
      | .accepted 0 => ([], .error "failed to write whole buffer")
      | .accepted n =>
        (bytes.take n ++ (writeAll (bytes.drop n) ws).1, (writeAll (bytes.drop n) ws).2)
      | .wouldBlock => ([], .error "Resource temporarily unavailable")
      | .failed e => ([], .error e)

inductive ProtocolError where
  | codec (e : CodecError)
  | io (e : String)
deriving DecidableEq

/-- The client's end of a connection. -/
structure Client where
  decoder : Decoder

namespace Client

/-- Send one message: the bytes that the socket takes. -/
def send (msg : Message) (writes : List WriteResult) : List UInt8 × Except ProtocolError Unit :=
  match encode msg with
  | .error e => ([], .error (.codec e))
  | .ok frame => ((writeAll frame writes).1, (writeAll frame writes).2.mapError .io)

/-- The complete messages that are there. -/
def readAvailable (c : Client) : ReadResult → Client × Except ProtocolError (List Message)
  | .bytes [] => (c, .error (.io "daemon closed the connection"))
  | .bytes data => (⟨(c.decoder.push data).1⟩, (c.decoder.push data).2.mapError .codec)
  | .wouldBlock => (c, .ok [])
  | .failed e => (c, .error (.io e))

end Client

end Client

/-- What a socket gives of the bytes that are under way: at most so many, and the end only when
there are none left of a closed connection. -/
def ReadResult.over (wire : List UInt8) (isOpen : Bool) (n : ℕ) : ReadResult → ReadResult
  | .bytes _ =>
    if wire.isEmpty then if isOpen then .wouldBlock else .bytes []
    else .bytes (wire.take (n + 1))
  | other => other

def ReadResult.data : ReadResult → List UInt8
  | .bytes data => data
  | .wouldBlock | .failed _ => []

/-- The bytes that the service pass takes from a slot's socket. -/
def SessionSlot.taken (slot : SessionSlot) (io : ClientIo) : List UInt8 :=
  if io.revents.isSome && !slot.closeAfterFlush then io.read.data else []

/-- The two ends of a connection, each as long as it is in use, and the bytes under way to the
daemon and to the client. -/
structure Dialogue where
  client : Option Client
  up : List UInt8
  slot : Option SessionSlot
  down : List UInt8

/-- What happens next: the client sends a message or looks for replies, or the daemon takes a
turn. A number limits the bytes that a socket gives at once. -/
inductive Move (τ : Type) where
  | send (msg : Message) (writes : List WriteResult)
  | receive (n : ℕ) (read : ReadResult)
  | turn (n : ℕ) (turn : τ)

/-- What happens at the two ends: the messages that the client sends, those that the daemon
processes with its answers to them, the replies that the client receives, and what an end cannot
read. -/
@[ext] structure Exchange where
  sent : List Message
  processed : List Message
  answers : List Message
  received : List Message
  unreadable : List CodecError
  deriving DecidableEq

namespace Exchange

@[simps] def none : Exchange := ⟨[], [], [], [], []⟩

instance : Append Exchange where
  append e e' := ⟨e.sent ++ e'.sent, e.processed ++ e'.processed, e.answers ++ e'.answers,
    e.received ++ e'.received, e.unreadable ++ e'.unreadable⟩

/-- All that happens in some moves. -/
def total (es : List Exchange) : Exchange :=
  ⟨es.flatMap sent, es.flatMap processed, es.flatMap answers, es.flatMap received,
    es.flatMap unreadable⟩

theorem total_concat (es : List Exchange) (e : Exchange) : total (es ++ [e]) = total es ++ e := by
  simp only [total, List.flatMap_append, List.flatMap_singleton]
  rfl

theorem append_none (e : Exchange) : e ++ none = e :=
  Exchange.ext (List.append_nil _) (List.append_nil _) (List.append_nil _) (List.append_nil _)
    (List.append_nil _)

variable (e e' : Exchange)

@[simp] theorem append_sent : (e ++ e').sent = e.sent ++ e'.sent := rfl
@[simp] theorem append_processed : (e ++ e').processed = e.processed ++ e'.processed := rfl
@[simp] theorem append_answers : (e ++ e').answers = e.answers ++ e'.answers := rfl
@[simp] theorem append_received : (e ++ e').received = e.received ++ e'.received := rfl
@[simp] theorem append_unreadable : (e ++ e').unreadable = e.unreadable ++ e'.unreadable := rfl

end Exchange

/-- The messages of some entries, and the daemon's answers to them. -/
def messages (entries : List LogEntry) : List Message :=
  entries.filterMap fun
    | .processed msg _ _ => some msg
    | .removed _ _ => none

def answers (entries : List LogEntry) : List Message :=
  entries.filterMap fun
    | .processed _ outcome _ => outcome.message
    | .removed _ _ => none

namespace Dialogue

/-- A client has just been accepted. -/
def start (fd maxHeldKeys : ℕ) : Dialogue :=
  ⟨some ⟨.new⟩, [], some (.new fd (.new maxHeldKeys)), []⟩

/-- What a decoder finds wrong with the bytes that were read. -/
def garbled (d : Decoder) (data : List UInt8) : List CodecError :=
  match data, (d.push data).2 with
  | _ :: _, .error e => [e]
  | _, _ => []

/-- A turn of the daemon at the slot. -/
def serve (dl : Dialogue) (slot : SessionSlot) (turn : SlotTurn) : Dialogue × Exchange :=
  let f := (slot.service turn.atService turn.io).1.flush turn.io
  let r := slotStep (some slot) turn
  ({ dl with
      up := dl.up.drop (slot.taken turn.io).length
      slot := r.1
      down := dl.down ++ f.1.stream.sent.drop slot.stream.sent.length },
    { Exchange.none with
      processed := messages r.2
      answers := answers r.2
      unreadable := garbled slot.decoder (slot.taken turn.io) })

/-- One move. An end that fails to send or to read is given up. -/
def step (dl : Dialogue) : Move SlotTurn → Dialogue × Exchange
  | .send msg writes =>
    match dl.client with
    | none => (dl, .none)
    | some _ =>
      match Client.send msg writes with
      | (bytes, .ok ()) => ({ dl with up := dl.up ++ bytes }, { Exchange.none with sent := [msg] })
      | (bytes, .error _) => ({ dl with client := none, up := dl.up ++ bytes }, .none)
  | .receive n read =>
    match dl.client with
    | none => (dl, .none)
    | some client =>
      let read := read.over dl.down dl.slot.isSome n
      let down := dl.down.drop read.data.length
      match client.readAvailable read with
      | (client, .ok msgs) =>
        ({ dl with client := some client, down := down }, { Exchange.none with received := msgs })
      | (_, .error _) =>
        ({ dl with client := none, down := down },
          { Exchange.none with unreadable := garbled client.decoder read.data })
  | .turn n turn =>
    match dl.slot with
    | none => (dl, .none)
    | some slot =>
      let read := turn.io.read.over dl.up dl.client.isSome n
      dl.serve slot { turn with io := { turn.io with read := read } }

end Dialogue

section Ends

variable {slot : SessionSlot} {d : RealDevice}

/-- What a socket took of a message that broke off is no message. -/
theorem writeAll_cases (bytes : List UInt8) (ws : List WriteResult) :
    writeAll bytes ws = (bytes, .ok ()) ∨
      ∃ part more e, writeAll bytes ws = (part, .error e) ∧ bytes = part ++ more ∧ more ≠ [] := by
  induction ws generalizing bytes with
  | nil =>
    cases bytes with
    | nil => exact Or.inl rfl
    | cons byte bytes => exact Or.inr ⟨[], byte :: bytes, _, rfl, rfl, by simp⟩
  | cons w ws ih =>
    cases bytes with
    | nil => exact Or.inl rfl
    | cons byte bytes =>
      have hnone : ∀ e, ∃ part more e', (([], .error e) : List UInt8 × Except String Unit) =
          (part, .error e') ∧ byte :: bytes = part ++ more ∧ more ≠ [] :=
        fun e => ⟨[], byte :: bytes, e, rfl, rfl, by simp⟩
      match w with
      | .accepted 0 => exact Or.inr (hnone _)
      | .wouldBlock => exact Or.inr (hnone _)
      | .failed e => exact Or.inr (hnone e)
      | .accepted (n + 1) =>
        have hsplit := List.take_append_drop (n + 1) (byte :: bytes)
        have hw : writeAll (byte :: bytes) (.accepted (n + 1) :: ws) =
            ((byte :: bytes).take (n + 1) ++ (writeAll ((byte :: bytes).drop (n + 1)) ws).1,
              (writeAll ((byte :: bytes).drop (n + 1)) ws).2) := rfl
        rcases ih ((byte :: bytes).drop (n + 1)) with hok | ⟨part, more, e, herr, hdrop, hmore⟩
        · rw [hw, hok, hsplit]
          exact Or.inl rfl
        · rw [hw, herr]
          refine Or.inr ⟨_, more, e, rfl, ?_, hmore⟩
          rw [List.append_assoc, ← hdrop, hsplit]

/-- A message is sent as its frame, or the socket takes a part of the frame at most. -/
theorem Client.send_cases (msg : Message) (writes : List WriteResult) :
    (∃ frame, encode msg = .ok frame ∧ Client.send msg writes = (frame, .ok ())) ∨
      ∃ part e, Client.send msg writes = (part, .error e) ∧ framer.peel part = .ok none := by
  unfold Client.send
  cases hm : encode msg with
  | error e => exact Or.inr ⟨[], _, rfl, Decoder.new_waits⟩
  | ok frame =>
    rcases writeAll_cases frame writes with hok | ⟨part, more, e, herr, hsplit, hmore⟩
    · exact Or.inl ⟨frame, rfl, by simp [hok, Except.mapError]⟩
    · refine Or.inr ⟨part, .io e, by simp [herr, Except.mapError], ?_⟩
      exact Channel.peel_proper (nextMessage_encode hm) hsplit hmore

theorem messages_cons (msg : Message) (outcome : Outcome) (events : List Uinput.InputEvent)
    (entries : List LogEntry) :
    messages (.processed msg outcome events :: entries) = msg :: messages entries := rfl

theorem answers_cons (msg : Message) (outcome : Outcome) (events : List Uinput.InputEvent)
    (entries : List LogEntry) : answers (.processed msg outcome events :: entries) =
      outcome.message.toList ++ answers entries := by
  cases h : outcome.message <;> simp [answers, h]

/-- The frames of some answers are queued: of all of them, unless the slot closes. -/
structure Queues (slot slot' : SessionSlot) (answers : List Message) (reason : Option String) :
    Prop where
  stream : slot'.stream = slot.stream
  decoder : slot'.decoder = slot.decoder
  out : ∃ accepted frames, Encodes accepted frames ∧ slot'.out = slot.out ++ frames.flatten ∧
    accepted <+: answers ∧ (reason = none → accepted = answers)

theorem Queues.nothing {slot' : SessionSlot} {answers : List Message} {reason : Option String}
    (hs : slot'.stream = slot.stream) (hd : slot'.decoder = slot.decoder)
    (ho : slot'.out = slot.out) (h : reason = none → answers = []) :
    Queues slot slot' answers reason :=
  ⟨hs, hd, [], [], .nil, by simp [ho], List.nil_prefix, fun hr => (h hr).symm⟩

theorem Queues.trans {slot' slot'' : SessionSlot} {as bs : List Message} {reason : Option String}
    (h : Queues slot slot' as none) (h' : Queues slot' slot'' bs reason) :
    Queues slot slot'' (as ++ bs) reason := by
  obtain ⟨_, frames, hf, ho, -, hall⟩ := h.out
  obtain ⟨accepted, frames', hf', ho', hp', hall'⟩ := h'.out
  obtain rfl := hall rfl
  refine ⟨h'.stream.trans h.stream, h'.decoder.trans h.decoder, _ ++ accepted, frames ++ frames',
    List.rel_append hf hf', ?_, (List.prefix_append_right_inj _).mpr hp',
    fun hr => by rw [hall' hr]⟩
  rw [ho', ho, List.flatten_append, List.append_assoc]

theorem queueReply_queues (slot : SessionSlot) (reply : Message) : Queues slot
    (slot.queueReply reply).1 [reply]
    (match (slot.queueReply reply).2 with | .ok _ => none | .error e => some e) := by
  rcases slot.queueReply_cases reply with ⟨frame, hencode, -, hq⟩ | ⟨e, hq⟩
  · rw [hq]
    exact ⟨rfl, rfl, [reply], [frame], .cons hencode .nil, by simp, List.prefix_rfl, fun _ => rfl⟩
  · rw [hq]
    exact .nothing rfl rfl rfl nofun

/-- Processing a message queues its answer. -/
theorem processOne_queues (slot : SessionSlot) (d : RealDevice) (allowed : Bool) (msg : Message) :
    Queues slot (slot.processOne d allowed msg).1
      (processMessage allowed slot.session d msg).2.2.message.toList
      ((slot.processOne d allowed msg).2.2.bind ServiceResult.reason) := by
  simp only [SessionSlot.processOne]
  cases (processMessage allowed slot.session d msg).2.2 with
  | keep | close => exact .nothing rfl rfl rfl fun _ => rfl
  | reply reply | replyAndClose reply =>
    have hq := queueReply_queues
      { slot with session := (processMessage allowed slot.session d msg).1 } reply
    dsimp only
    generalize SessionSlot.queueReply _ reply = q at hq ⊢
    obtain ⟨slot', result⟩ := q
    cases result with
    | ok u => exact ⟨hq.stream, hq.decoder, hq.out⟩
    | error e =>
      obtain ⟨accepted, frames, hframes, hout, hprefix, -⟩ := hq.out
      exact ⟨hq.stream, hq.decoder, accepted, frames, hframes, hout, hprefix, fun h => by cases h⟩

/-- The messages that are processed are the first ones that were read, all of them unless the
slot closes, and their answers are queued. -/
theorem processMessages_queues (slot : SessionSlot) (d : RealDevice) (allowed : ℕ → Bool)
    (msgs : List Message) :
    Queues slot (slot.processMessages d allowed msgs).1
      (answers (slot.processed d allowed msgs)) (slot.processMessages d allowed msgs).2.2.reason ∧
    messages (slot.processed d allowed msgs) <+: msgs ∧
    ((slot.processMessages d allowed msgs).2.2.reason = none →
      (slot.processMessages d allowed msgs).1.closeAfterFlush = false →
      messages (slot.processed d allowed msgs) = msgs) := by
  induction msgs generalizing slot d allowed with
  | nil => exact ⟨.nothing rfl rfl rfl fun _ => rfl, List.prefix_rfl, fun _ _ => rfl⟩
  | cons msg msgs ih =>
    have hone := processOne_queues slot d (allowed 0) msg
    obtain ⟨-, -, hcases⟩ := processOne_cases slot d (allowed 0) msg
    rw [SessionSlot.processMessages_cons, SessionSlot.processed]
    generalize slot.processOne d (allowed 0) msg = one at hone hcases ⊢
    obtain ⟨slot', d', result⟩ := one
    rw [answers_cons, messages_cons]
    cases result with
    | none =>
      obtain ⟨hq, hp, hall⟩ := ih slot' d' fun n => allowed (n + 1)
      exact ⟨hone.trans hq, List.cons_prefix_cons.mpr ⟨rfl, hp⟩,
        fun hr hc => congrArg _ (hall hr hc)⟩
    | some result =>
      refine ⟨?_, List.cons_prefix_cons.mpr ⟨rfl, List.nil_prefix⟩, fun hr hc => ?_⟩
      · rw [show answers [] = [] from rfl, List.append_nil]
        exact hone
      · obtain ⟨hnone, -⟩ | ⟨_, hsome, hends⟩ := hcases
        · cases hnone
        · obtain rfl := Option.some.inj hsome
          exact absurd ⟨hr, hc⟩ hends

/-- Servicing a slot takes no bytes and leaves it as it is; or it makes messages of the bytes that
it takes. -/
theorem service_taken (slot : SessionSlot) (d : RealDevice) (io : ClientIo) :
    (slot.taken io = [] ∧ (slot.service d io).1 = slot ∧ slot.serviced d io = []) ∨
    slot.closeAfterFlush = false ∧
      ((∃ e, (slot.decoder.push (slot.taken io)).2 = .error e) ∨
      ∃ msgs, (slot.decoder.push (slot.taken io)).2 = .ok msgs ∧
        slot.service d io = SessionSlot.processMessages
          { slot with decoder := (slot.decoder.push (slot.taken io)).1 } d io.allowed msgs ∧
        slot.serviced d io = SessionSlot.processed
          { slot with decoder := (slot.decoder.push (slot.taken io)).1 } d io.allowed msgs) := by
  obtain ⟨stream, session, decoder, out, closing, reason⟩ := slot
  unfold SessionSlot.taken SessionSlot.service SessionSlot.serviced
  cases io.revents with
  | none => exact .inl ⟨rfl, rfl, rfl⟩
  | some flags =>
    cases closing with
    | true => exact .inl ⟨rfl, rfl, rfl⟩
    | false =>
      simp only [SessionSlot.serviceClient, Bool.false_eq_true, if_false]
      cases io.read with
      | wouldBlock | failed e => exact .inl ⟨rfl, rfl, rfl⟩
      | bytes data =>
        cases data with
        | nil => exact .inl ⟨rfl, rfl, rfl⟩
        | cons byte data =>
          refine .inr ⟨trivial, ?_⟩
          change (∃ e, (decoder.push (byte :: data)).2 = .error e) ∨
            ∃ msgs, (decoder.push (byte :: data)).2 = .ok msgs ∧ _
          cases hpush : decoder.push (byte :: data) with
          | mk decoder' result =>
            cases result with
            | error e => exact .inl ⟨e, rfl⟩
            | ok msgs =>
              have hdata : (if (some flags).isSome && !false then ReadResult.data
                  (.bytes (byte :: data)) else []) = byte :: data := rfl
              exact .inr ⟨msgs, rfl, by simp only [hdata, hpush], by simp only [hdata, hpush]⟩

theorem flush_out (slot : SessionSlot) (io : ClientIo) : ∃ n,
    (slot.flush io).1.stream.sent = slot.stream.sent ++ slot.out.take n ∧
      (slot.flush io).1.out = slot.out.drop n ∧ (slot.flush io).1.decoder = slot.decoder := by
  have hnone : ∃ n, slot.stream.sent = slot.stream.sent ++ slot.out.take n ∧
      slot.out = slot.out.drop n ∧ slot.decoder = slot.decoder := ⟨0, by simp⟩
  obtain ⟨n, hf⟩ := slot.flushOut_fst io.writes
  have hsome : ∃ n, (slot.flushOut io.writes).1.stream.sent = slot.stream.sent ++ slot.out.take n ∧
      (slot.flushOut io.writes).1.out = slot.out.drop n ∧
      (slot.flushOut io.writes).1.decoder = slot.decoder := ⟨n, by rw [hf]; exact ⟨rfl, rfl, rfl⟩⟩
  unfold SessionSlot.flush
  split
  · exact hnone
  split
  · exact hnone
  split <;> next h =>
    rw [h] at hsome
    first
    | exact hsome
    | (split <;> exact hsome)

theorem over_data (read : ReadResult) (wire : List UInt8) (isOpen : Bool) (n : ℕ) :
    (read.over wire isOpen n).data <+: wire := by
  unfold ReadResult.over
  split
  · split
    · split <;> exact List.nil_prefix
    · exact List.take_prefix _ _
  next hother =>
    cases read with
    | bytes data => exact absurd rfl (hother data)
    | wouldBlock | failed e => exact List.nil_prefix

theorem taken_prefix (slot : SessionSlot) {io : ClientIo} {wire : List UInt8}
    (h : io.read.data <+: wire) : slot.taken io <+: wire := by
  unfold SessionSlot.taken
  split
  · exact h
  · exact List.nil_prefix

section Turn

variable {sent got : List Message} {up rest : List UInt8} {io : ClientIo}

/-- A decoder makes messages of what it reads off a channel. -/
theorem push_of_channel {dec : Decoder} {chunk wire : List UInt8}
    (h : Channel framer sent got dec.buf (chunk ++ wire) rest) :
    ∃ msgs, (dec.push chunk).2 = .ok msgs ∧
      Channel framer sent (got ++ msgs) (dec.push chunk).1.buf wire rest := by
  obtain ⟨msgs, buf, hp, hc⟩ := h.receive
  rw [Decoder.push_eq, hp]
  exact ⟨msgs, rfl, hc⟩

theorem garbled_eq_nil {dec : Decoder} {chunk : List UInt8} {msgs : List Message}
    (h : (dec.push chunk).2 = .ok msgs) : Dialogue.garbled dec chunk = [] := by
  unfold Dialogue.garbled
  cases chunk <;> simp [h]

/-- What servicing a slot does at the end of a channel: what it reads can be read, the messages
that are processed are the next ones of the channel, and their answers are queued. -/
theorem service_channel (h : slot.closeAfterFlush = false →
      Channel framer sent got slot.decoder.buf (slot.taken io ++ up) rest)
    (hgot : got <+: sent) :
    Dialogue.garbled slot.decoder (slot.taken io) = [] ∧
      got ++ messages (slot.serviced d io) <+: sent ∧
      ((slot.service d io).2.2.reason = none → (slot.service d io).1.closeAfterFlush = false →
        Channel framer sent (got ++ messages (slot.serviced d io))
          (slot.service d io).1.decoder.buf up rest) ∧
      (slot.service d io).1.stream = slot.stream ∧
      ∃ accepted frames, Encodes accepted frames ∧
        (slot.service d io).1.out = slot.out ++ frames.flatten ∧
        accepted <+: answers (slot.serviced d io) ∧
        ((slot.service d io).2.2.reason = none → accepted = answers (slot.serviced d io)) := by
  rcases service_taken slot d io with ⟨htaken, hs, hnone⟩ | ⟨hclosing, hpush⟩
  · rw [htaken] at h ⊢
    rw [hs, hnone, show messages [] = [] from rfl, List.append_nil]
    refine ⟨rfl, hgot, fun _ hc => h hc, rfl, [], [], .nil, by simp, List.nil_prefix, fun _ => rfl⟩
  · obtain ⟨msgs, hok, hc⟩ := push_of_channel (h hclosing)
    rcases hpush with ⟨e, herr⟩ | ⟨msgs', hok', hservice, hserviced⟩
    · rw [hok] at herr
      cases herr
    · obtain rfl : msgs = msgs' := by
        rw [hok] at hok'
        exact Except.ok.inj hok'
      obtain ⟨hq, hp, hall⟩ := processMessages_queues
        { slot with decoder := (slot.decoder.push (slot.taken io)).1 } d io.allowed msgs
      rw [← hservice, ← hserviced] at hq hall
      rw [← hserviced] at hp
      refine ⟨garbled_eq_nil hok, ?_, fun hr hclose => ?_, hq.stream, hq.out⟩
      · exact ((List.prefix_append_right_inj got).mpr hp).trans hc.got_prefix
      · rw [hall hr hclose, hq.decoder]
        exact hc

end Turn

end Ends

namespace Dialogue

/-- What each end has got is the beginning of what the other one has sent, nothing unreadable was
read, and the bytes under way are the rest: the messages that an end in use has not got yet. -/
structure Faithful (e : Exchange) (dl : Dialogue) : Prop where
  readable : e.unreadable = []
  processed : e.processed <+: e.sent
  received : e.received <+: e.answers
  up : ∀ slot, dl.slot = some slot → slot.closeAfterFlush = false → ∃ rest,
    Channel framer e.sent e.processed slot.decoder.buf dl.up rest ∧
      (dl.client.isSome = true → rest = [])
  down : ∀ client, dl.client = some client → ∃ accepted lost, accepted <+: e.answers ∧
    Channel framer accepted e.received client.decoder.buf (dl.down ++ lost) [] ∧
      ∀ slot, dl.slot = some slot → accepted = e.answers ∧ lost = slot.out

variable {e : Exchange} {dl : Dialogue}

theorem Faithful.start (fd maxHeldKeys : ℕ) : Faithful .none (start fd maxHeldKeys) where
  readable := rfl
  processed := List.prefix_rfl
  received := List.prefix_rfl
  up := by
    rintro slot ⟨⟩ -
    exact ⟨[], .new Decoder.new_waits, fun _ => rfl⟩
  down := by
    rintro client ⟨⟩
    refine ⟨[], [], List.prefix_rfl, .new Decoder.new_waits, ?_⟩
    rintro slot ⟨⟩
    exact ⟨rfl, rfl⟩

theorem Faithful.send (h : Faithful e dl) (msg : Message) (writes : List WriteResult) :
    Faithful (e ++ (dl.step (.send msg writes)).2) (dl.step (.send msg writes)).1 := by
  simp only [Dialogue.step]
  cases hclient : dl.client with
  | none => rwa [Exchange.append_none]
  | some client =>
    have hup : ∀ slot, dl.slot = some slot → slot.closeAfterFlush = false →
        Channel framer e.sent e.processed slot.decoder.buf dl.up [] := by
      intro slot hslot hc
      obtain ⟨rest, hch, hrest⟩ := h.up slot hslot hc
      rwa [hrest (by rw [hclient]; rfl)] at hch
    rcases Client.send_cases msg writes with ⟨frame, hm, hsend⟩ | ⟨part, err, hsend, hpart⟩
    · rw [hsend]
      refine ⟨by simpa using h.readable, ?_, by simpa using h.received, fun slot hslot hc => ?_,
        by simpa [hclient] using h.down⟩
      · simpa using h.processed.trans (List.prefix_append _ _)
      · refine ⟨[], ?_, fun _ => rfl⟩
        simpa using (hup slot hslot hc).send (nextMessage_encode hm)
    · rw [hsend, Exchange.append_none]
      exact { h with
        up := fun slot hslot hc => ⟨part, (hup slot hslot hc).breakOff hpart, nofun⟩
        down := nofun }

/-- Reading off a channel fails only where nothing is there. -/
theorem readAvailable_of_channel {client : Client} {sent got : List Message}
    {rest wire : List UInt8} {read : ReadResult}
    (h : Channel framer sent got client.decoder.buf (read.data ++ wire) rest) :
    garbled client.decoder read.data = [] ∧
      ((∃ err, (client.readAvailable read).2 = .error err) ∨
        ∃ msgs, (client.readAvailable read).2 = .ok msgs ∧
          Channel framer sent (got ++ msgs) (client.readAvailable read).1.decoder.buf wire
            rest) := by
  obtain ⟨msgs, hok, hch⟩ := push_of_channel h
  refine ⟨garbled_eq_nil hok, ?_⟩
  cases read with
  | wouldBlock => exact Or.inr ⟨[], rfl, (List.append_nil got).symm ▸ h⟩
  | failed err => exact Or.inl ⟨_, rfl⟩
  | bytes data =>
    cases data with
    | nil => exact Or.inl ⟨_, rfl⟩
    | cons byte data =>
      refine Or.inr ⟨msgs, ?_, hch⟩
      simp only [ReadResult.data] at hok
      simp only [Client.readAvailable, hok, Except.mapError]

theorem Faithful.receive (h : Faithful e dl) (n : ℕ) (read : ReadResult) :
    Faithful (e ++ (dl.step (.receive n read)).2) (dl.step (.receive n read)).1 := by
  simp only [Dialogue.step]
  cases hclient : dl.client with
  | none => rwa [Exchange.append_none]
  | some client =>
    obtain ⟨accepted, lost, haccepted, hch, hslot⟩ := h.down client hclient
    have hdata := over_data read dl.down dl.slot.isSome n
    generalize read.over dl.down dl.slot.isSome n = read at hdata
    obtain ⟨down, hsplit⟩ := hdata
    have hdown : dl.down.drop read.data.length = down := by
      rw [← hsplit, List.drop_left]
    dsimp only
    rw [hdown]
    rw [← hsplit, List.append_assoc] at hch
    obtain ⟨hgarbled, hread⟩ := readAvailable_of_channel hch
    rw [hgarbled]
    generalize client.readAvailable read = r at hread
    obtain ⟨client', result⟩ := r
    obtain ⟨err, rfl⟩ | ⟨msgs, rfl, hch⟩ := hread
    · exact {
        readable := by simpa using h.readable
        processed := by simpa using h.processed
        received := by simpa using h.received
        up := fun slot hslot hc => by
          obtain ⟨rest, hup, -⟩ := h.up slot hslot hc
          exact ⟨rest, by simpa using hup, nofun⟩
        down := nofun }
    · exact {
        readable := by simpa using h.readable
        processed := by simpa using h.processed
        received := by simpa using hch.got_prefix.trans haccepted
        up := fun slot hslot hc => by
          obtain ⟨rest, hup, hrest⟩ := h.up slot hslot hc
          exact ⟨rest, by simpa using hup, fun _ => hrest (by rw [hclient]; rfl)⟩
        down := by
          rintro client ⟨⟩
          exact ⟨accepted, lost, by simpa using haccepted, hch, by simpa using hslot⟩ }

/-- A slot that is gone after a turn, or its flushed successor, has answered what it processed. -/
theorem entries_slotStep (slot : SessionSlot) (turn : SlotTurn) :
    messages (slotStep (some slot) turn).2 = messages (slot.serviced turn.atService turn.io) ∧
      answers (slotStep (some slot) turn).2 = answers (slot.serviced turn.atService turn.io) := by
  rcases slotStep_cases slot turn with ⟨-, hr⟩ | hr
  · rw [hr]
    exact ⟨rfl, rfl⟩
  · rw [hr]
    simp [messages, answers]

theorem Faithful.serve (h : Faithful e dl) {slot : SessionSlot} (hslot : dl.slot = some slot)
    {turn : SlotTurn} (hdata : turn.io.read.data <+: dl.up) :
    Faithful (e ++ (dl.serve slot turn).2) (dl.serve slot turn).1 := by
  simp only [Dialogue.serve]
  obtain ⟨up, hsplit⟩ := taken_prefix slot hdata
  have hdrop : dl.up.drop (slot.taken turn.io).length = up := by
    rw [← hsplit, List.drop_left]
  obtain ⟨rest, hch, hrest⟩ : ∃ rest, (slot.closeAfterFlush = false →
      Channel framer e.sent e.processed slot.decoder.buf (slot.taken turn.io ++ up) rest) ∧
      (dl.client.isSome = true → rest = []) := by
    rw [hsplit]
    cases hc : slot.closeAfterFlush with
    | true => exact ⟨[], nofun, fun _ => rfl⟩
    | false =>
      obtain ⟨rest, hch, hrest⟩ := h.up slot hslot hc
      exact ⟨rest, fun _ => hch, hrest⟩
  obtain ⟨hgarbled, hprocessed, hup, hstream, accepted, frames, hf, hout, hprefix, hall⟩ :=
    service_channel (d := turn.atService) hch h.processed
  obtain ⟨m, hsent, hfout, hfdec⟩ := flush_out (slot.service turn.atService turn.io).1 turn.io
  have hframe := SessionSlot.flush_frame (slot.service turn.atService turn.io).1 turn.io
  obtain ⟨hmessages, hanswers⟩ := entries_slotStep slot turn
  rw [hdrop, hgarbled, hmessages, hanswers]
  refine ⟨by simpa using h.readable, by simpa using hprocessed,
    by simpa using h.received.trans (List.prefix_append _ _), ?_, ?_⟩
  · intro slot' hslot' hc
    obtain ⟨hreason, hr⟩ | hr := slotStep_cases slot turn
    · rw [hr] at hslot'
      cases hslot'
      refine ⟨rest, ?_, hrest⟩
      rw [hfdec]
      simpa using hup hreason (hframe.2.symm.trans hc)
    · rw [hr] at hslot'
      cases hslot'
  · intro client hclient
    obtain ⟨accepted₀, lost, -, hdown, hslot₀⟩ := h.down client hclient
    obtain ⟨rfl, rfl⟩ := hslot₀ slot hslot
    have hsend := hdown.sendAll (hf.imp fun _ _ hm => nextMessage_encode hm)
    have hwire : dl.down ++ ((slot.service turn.atService turn.io).1.flush
          turn.io).1.stream.sent.drop slot.stream.sent.length ++
        ((slot.service turn.atService turn.io).1.flush turn.io).1.out =
          dl.down ++ slot.out ++ frames.flatten := by
      rw [hsent, hstream, List.drop_left, hfout, List.append_assoc, List.take_append_drop, hout,
        List.append_assoc]
    refine ⟨_, ((slot.service turn.atService turn.io).1.flush turn.io).1.out,
      (List.prefix_append_right_inj e.answers).mpr hprefix, ?_, ?_⟩
    · rw [hwire]
      simpa using hsend
    · intro slot' hslot'
      obtain ⟨hreason, hr⟩ | hr := slotStep_cases slot turn
      · rw [hr] at hslot'
        cases hslot'
        exact ⟨congrArg _ (hall hreason), rfl⟩
      · rw [hr] at hslot'
        cases hslot'

theorem Faithful.turn (h : Faithful e dl) (n : ℕ) (turn : SlotTurn) :
    Faithful (e ++ (dl.step (.turn n turn)).2) (dl.step (.turn n turn)).1 := by
  simp only [Dialogue.step]
  cases hslot : dl.slot with
  | none => rwa [Exchange.append_none]
  | some slot => exact h.serve hslot (over_data turn.io.read dl.up dl.client.isSome n)

theorem Faithful.step (h : Faithful e dl) (m : Move SlotTurn) :
    Faithful (e ++ (dl.step m).2) (dl.step m).1 := by
  cases m with
  | send msg writes => exact h.send msg writes
  | receive n read => exact h.receive n read
  | turn n turn => exact h.turn n turn

/-- What the two ends know of each other: nothing is lost, repeated or moved in either direction,
and when nothing is under way everything has arrived. -/
structure Delivered (e : Exchange) (dl : Dialogue) : Prop where
  readable : e.unreadable = []
  processed : e.processed <+: e.sent
  received : e.received <+: e.answers
  all_processed : ∀ slot, dl.slot = some slot → slot.closeAfterFlush = false → dl.up = [] →
    e.processed = e.sent
  all_received : ∀ client slot, dl.client = some client → dl.slot = some slot → slot.out = [] →
    dl.down = [] → e.received = e.answers

theorem Faithful.delivered (h : Faithful e dl) : Delivered e dl := by
  refine ⟨h.readable, h.processed, h.received, fun slot hslot hc hup => ?_,
    fun client slot hclient hslot hout hdown => ?_⟩
  · obtain ⟨rest, hch, -⟩ := h.up slot hslot hc
    rw [hup] at hch
    exact hch.got_eq
  · obtain ⟨accepted, lost, -, hch, hslot₀⟩ := h.down client hclient
    obtain ⟨rfl, rfl⟩ := hslot₀ slot hslot
    rw [hdown, hout] at hch
    exact hch.got_eq

end Dialogue

end Ferrokey.Daemon
