import Ferrokey.Daemon.Closing

/-! # The handshake of one client

A client's slot is serviced and flushed once a turn until it is removed, and
everything done for it is written down: every message that is processed, with its
outcome and the events it writes to the device, and the releases at the removal.
Whatever arrives in whatever chunks, and whatever the others do with the device
between the turns, events are written only after the handshake, and nothing is
processed after an outcome that closes.
-/

namespace Ferrokey.Daemon

open Uinput Protocol Machine

/-- Something done for a session, with the events it wrote to the device. -/
inductive LogEntry where
  | processed (msg : Message) (outcome : Outcome) (events : List InputEvent)
  | removed (held : List UInt16) (events : List InputEvent)
  deriving DecidableEq

def LogEntry.events : LogEntry → List InputEvent
  | processed _ _ events | removed _ events => events

/-- The events between two states of the device. -/
def written (d d' : RealDevice) : List InputEvent := d'.dev.fd.log.drop d.dev.fd.log.length

def ServiceResult.reason : ServiceResult → Option String
  | .alive => none
  | .closed reason => some reason

namespace SessionSlot

/-- What one message does with the slot: the reading goes on, or it ends with a result. -/
def processOne (slot : SessionSlot) (d : RealDevice) (allowed : Bool) (msg : Message) :
    SessionSlot × RealDevice × Option ServiceResult :=
  let r := processMessage allowed slot.session d msg
  let slot := { slot with session := r.1 }
  match r.2.2 with
  | .keep => (slot, r.2.1, none)
  | .reply reply =>
    match slot.queueReply reply with
    | (slot, .ok ()) => (slot, r.2.1, none)
    | (slot, .error e) => (slot, r.2.1, some (.closed s!"reply queue error: {e}"))
  | .replyAndClose reply =>
    match slot.queueReply reply with
    | (slot, .ok ()) =>
      ({ slot with closeAfterFlush := true, closeReason := some (frameReason reply) },
        r.2.1, some .alive)
    | (slot, .error e) => (slot, r.2.1, some (.closed s!"reply queue error: {e}"))
  | .close => (slot, r.2.1, some (.closed "handshake gate close"))

/-- The messages of one read that are processed, up to the one that ends the reading. -/
def processed (slot : SessionSlot) (d : RealDevice) : (ℕ → Bool) → List Message → List LogEntry
  | _, [] => []
  | allowed, msg :: msgs =>
    let r := processMessage (allowed 0) slot.session d msg
    .processed msg r.2.2 (written d r.2.1) ::
      match slot.processOne d (allowed 0) msg with
      | (slot, d, none) => slot.processed d (fun n => allowed (n + 1)) msgs
      | (_, _, some _) => []

/-- The service pass at one slot. -/
def service (slot : SessionSlot) (d : RealDevice) (io : ClientIo) :
    SessionSlot × RealDevice × ServiceResult :=
  match io.revents with
  | none => (slot, d, .alive)
  | some _ =>
    if slot.closeAfterFlush then (slot, d, .alive)
    else slot.serviceClient d io.read io.allowed

/-- The messages that the service pass processes at one slot. -/
def serviced (slot : SessionSlot) (d : RealDevice) (io : ClientIo) : List LogEntry :=
  match io.revents, slot.closeAfterFlush, io.read with
  | some _, false, .bytes (byte :: data) =>
    match slot.decoder.push (byte :: data) with
    | (decoder, .ok msgs) => { slot with decoder := decoder }.processed d io.allowed msgs
    | (_, .error _) => []
  | _, _, _ => []

/-- The flush pass at one slot; a reason is why it closes. -/
def flush (slot : SessionSlot) (io : ClientIo) : SessionSlot × Option String :=
  if slot.out.isEmpty && !slot.closeAfterFlush then (slot, none)
  else if !io.revents.getD false && !slot.closeAfterFlush then (slot, none)
  else
    match slot.flushOut io.writes with
    | (slot, .ok true) =>
      if slot.closeAfterFlush then
        ({ slot with closeReason := none }, some (slot.closeReason.getD "close after error frame"))
      else (slot, none)
    | (slot, .ok false) => (slot, none)
    | (slot, .error e) => (slot, some s!"write failed: {e}")

theorem queueReply_frame (slot : SessionSlot) (msg : Message) :
    (slot.queueReply msg).1.session = slot.session ∧
      (slot.queueReply msg).1.closeAfterFlush = slot.closeAfterFlush := by
  rcases slot.queueReply_cases msg with ⟨frame, -, -, hqueue⟩ | ⟨e, hqueue⟩
  · rw [hqueue]
    exact ⟨rfl, rfl⟩
  · rw [hqueue]
    exact ⟨rfl, rfl⟩

theorem flushOut_frame (slot : SessionSlot) (ws : List WriteResult) :
    (slot.flushOut ws).1.session = slot.session ∧
      (slot.flushOut ws).1.closeAfterFlush = slot.closeAfterFlush := by
  obtain ⟨n, hflush⟩ := slot.flushOut_fst ws
  rw [hflush]
  exact ⟨rfl, rfl⟩

theorem flush_frame (slot : SessionSlot) (io : ClientIo) :
    (slot.flush io).1.session = slot.session ∧
      (slot.flush io).1.closeAfterFlush = slot.closeAfterFlush := by
  have hf := slot.flushOut_frame io.writes
  unfold flush
  split
  · exact ⟨rfl, rfl⟩
  split
  · exact ⟨rfl, rfl⟩
  split <;> next h => rw [h] at hf; first | exact hf | (split <;> exact hf)

theorem processMessages_cons (slot : SessionSlot) (d : RealDevice) (allowed : ℕ → Bool)
    (msg : Message) (msgs : List Message) : slot.processMessages d allowed (msg :: msgs) =
      match slot.processOne d (allowed 0) msg with
      | (slot, d, none) => slot.processMessages d (fun n => allowed (n + 1)) msgs
      | (slot, d, some result) => (slot, d, result) := by
  simp only [processMessages, processOne]
  cases (processMessage (allowed 0) slot.session d msg).2.2 with
  | keep => rfl
  | close => rfl
  | reply reply | replyAndClose reply =>
    dsimp only
    generalize queueReply _ reply = q
    obtain ⟨slot', result⟩ := q
    cases result <;> rfl

end SessionSlot

namespace Runtime

variable {io : ℕ → ClientIo} {acc : Runtime × List (ℕ × String)} {i : ℕ} {slot : SessionSlot}

/-- The service pass does at each position what it does at the slot alone. -/
theorem serviceAt_eq (h : acc.1.sessions[i]? = some slot) : serviceAt io acc i =
    let r := slot.service acc.1.device (io i)
    ({ acc.1 with device := r.2.1, sessions := acc.1.sessions.set i r.1 },
      acc.2 ++ (r.2.2.reason.map fun reason => (i, reason)).toList) := by
  have hset : acc.1.sessions.set i slot = acc.1.sessions := by
    obtain ⟨hlt, rfl⟩ := List.getElem?_eq_some_iff.mp h
    exact List.set_getElem_self hlt
  unfold serviceAt SessionSlot.service
  rw [h]
  cases (io i).revents with
  | none => simp [ServiceResult.reason, hset]
  | some flags =>
    dsimp only
    split
    · simp [ServiceResult.reason, hset]
    · cases (slot.serviceClient acc.1.device (io i).read (io i).allowed).2.2 with
      | alive => simp [ServiceResult.reason]
      | closed reason => simp [ServiceResult.reason]

theorem flushAt_eq (h : acc.1.sessions[i]? = some slot) : flushAt io acc i =
    let r := slot.flush (io i)
    ({ acc.1 with sessions := acc.1.sessions.set i r.1 },
      acc.2 ++ (r.2.map fun reason => (i, reason)).toList) := by
  have hset : acc.1.sessions.set i slot = acc.1.sessions := by
    obtain ⟨hlt, rfl⟩ := List.getElem?_eq_some_iff.mp h
    exact List.set_getElem_self hlt
  unfold flushAt SessionSlot.flush
  rw [h]
  dsimp only
  split
  · simp [hset]
  split
  · simp [hset]
  cases slot.flushOut (io i).writes with
  | mk slot' result =>
    match result with
    | .ok true => by_cases hc : slot'.closeAfterFlush = true <;> simp [hc]
    | .ok false => simp
    | .error e => rfl

theorem serviceAt_other {j : ℕ} (h : j ≠ i) :
    (serviceAt io acc j).1.sessions[i]? = acc.1.sessions[i]? := by
  cases hj : acc.1.sessions[j]? with
  | none => cases hr : (io j).revents <;> simp [serviceAt, hj, hr]
  | some slot =>
    rw [serviceAt_eq hj]
    exact List.getElem?_set_ne h

theorem flushAt_other {j : ℕ} (h : j ≠ i) :
    (flushAt io acc j).1.sessions[i]? = acc.1.sessions[i]? := by
  cases hj : acc.1.sessions[j]? with
  | none => simp [flushAt, hj]
  | some slot =>
    rw [flushAt_eq hj]
    exact List.getElem?_set_ne h

/-- New clients come behind the others, each with a slot of its own. -/
theorem acceptPending_eq (rt : Runtime) (ps : List Pending) : ∃ fds : List ℕ,
    rt.acceptPending ps =
      { rt with sessions := rt.sessions ++ fds.map fun fd => .new fd (.new rt.maxHeldKeys) } := by
  induction ps generalizing rt with
  | nil => exact ⟨[], by simp [acceptPending]⟩
  | cons p ps ih =>
    rw [acceptPending]
    split
    · exact ih rt
    split
    · obtain ⟨fds, hfds⟩ :=
        ih { rt with sessions := rt.sessions ++ [.new p.fd (.new rt.maxHeldKeys)] }
      exact ⟨p.fd :: fds, by simp [hfds]⟩
    · exact ih rt

section Pass

variable {f : Runtime × List (ℕ × String) → ℕ → Runtime × List (ℕ × String)}

/-- A pass leaves the positions that it has not come to. -/
theorem pass_later (hf : ∀ acc j, j ≠ i → (f acc j).1.sessions[i]? = acc.1.sessions[i]?)
    (rt : Runtime) {n : ℕ} (hn : n ≤ i) :
    ((List.range n).foldl f (rt, [])).1.sessions[i]? = rt.sessions[i]? := by
  induction n with
  | zero => rfl
  | succ n ih =>
    rw [List.range_succ, List.foldl_append, List.foldl_cons, List.foldl_nil, hf _ n (by omega),
      ih (by omega)]

/-- In a pass over the positions, a slot is changed and collected by its own visit alone. -/
theorem pass_slot (hv : ∀ acc j, Visits j acc (f acc j))
    (hf : ∀ acc j, j ≠ i → (f acc j).1.sessions[i]? = acc.1.sessions[i]?) (rt : Runtime) (n : ℕ)
    (hi : i < n) :
    let before := (List.range i).foldl f (rt, [])
    before.1.sessions[i]? = rt.sessions[i]? ∧ (∀ reason, (i, reason) ∉ before.2) ∧
    ((List.range n).foldl f (rt, [])).1.sessions[i]? = (f before i).1.sessions[i]? ∧
    ∀ reason, (i, reason) ∈ ((List.range n).foldl f (rt, [])).2 ↔ (i, reason) ∈ (f before i).2 := by
  refine ⟨pass_later hf rt le_rfl, ?_, ?_⟩
  · intro reason hm
    have hfst := (foldl_visits hv (List.range i) rt).2.subset (List.mem_map_of_mem hm)
    exact absurd (List.mem_range.mp hfst) (Nat.lt_irrefl i)
  · induction n with
    | zero => exact absurd hi (Nat.not_lt_zero i)
    | succ n ih =>
      rw [List.range_succ, List.foldl_append, List.foldl_cons, List.foldl_nil]
      rcases Nat.lt_succ_iff_lt_or_eq.mp hi with hi | rfl
      · obtain ⟨hs, hc⟩ := ih hi
        refine ⟨(hf _ n (by omega)).trans hs, fun reason => ?_⟩
        rcases (hv ((List.range n).foldl f (rt, [])) n).collects with he | ⟨reason', he⟩
        · rw [he, hc]
        · rw [he, List.mem_append, hc]
          have hne : (i, reason) ∉ [(n, reason')] := by
            simp only [List.mem_singleton, Prod.mk.injEq, not_and]
            omega
          simp [hne]
      · exact ⟨rfl, fun _ => Iff.rfl⟩

end Pass

/-- A turn leaves the clients that it has accepted as they are. -/
theorem passes_new {rt : Runtime} {turn : Turn} (hi : rt.sessions.length ≤ i) :
    (rt.passes turn).1.sessions[i]? = (rt.acceptPending turn.pending).sessions[i]? :=
  (pass_later (fun _ _ hj => flushAt_other hj) _ hi).trans
    (pass_later (fun _ _ hj => serviceAt_other hj) _ hi)

end Runtime

/-- One turn as a slot meets it: its sockets, and the device when it is serviced and, if it
comes to that, when it is removed. -/
structure SlotTurn where
  io : ClientIo
  atService : RealDevice
  atRemoval : RealDevice

/-- One turn of a slot by itself, as long as it is there, with what was done for its session: it is
removed in the turn that collects it. In the loop, with its other clients, that is so while the
closings are ordered. -/
def slotStep : Option SessionSlot → SlotTurn → Option SessionSlot × List LogEntry
  | none, _ => (none, [])
  | some slot, turn =>
    let done := slot.serviced turn.atService turn.io
    let s := slot.service turn.atService turn.io
    let f := s.1.flush turn.io
    match s.2.2, f.2 with
    | .alive, none => (some f.1, done)
    | _, _ => (none, done ++
        [.removed f.1.session.held.elems
          (written turn.atRemoval (disconnect f.1.session turn.atRemoval).1)])

theorem slotStep_eq_none_iff {slot : SessionSlot} {turn : SlotTurn} :
    (slotStep (some slot) turn).1 = none ↔
      (slot.service turn.atService turn.io).2.2.reason.isSome ∨
        ((slot.service turn.atService turn.io).1.flush turn.io).2.isSome := by
  simp only [slotStep]
  generalize slot.service turn.atService turn.io = r
  obtain ⟨slot', d, result⟩ := r
  cases result <;> cases (slot'.flush turn.io).2 <;> simp [ServiceResult.reason]

/-- A turn of a slot ends with the flushed slot, or with its removal. -/
theorem slotStep_cases (slot : SessionSlot) (turn : SlotTurn) :
    ((slot.service turn.atService turn.io).2.2.reason = none ∧ slotStep (some slot) turn =
      (some ((slot.service turn.atService turn.io).1.flush turn.io).1,
        slot.serviced turn.atService turn.io)) ∨
    let session := ((slot.service turn.atService turn.io).1.flush turn.io).1.session
    slotStep (some slot) turn = (none, slot.serviced turn.atService turn.io ++
      [.removed session.held.elems
        (written turn.atRemoval (disconnect session turn.atRemoval).1)]) := by
  simp only [slotStep]
  split
  next hs _ => exact .inl ⟨by rw [hs]; rfl, rfl⟩
  · exact .inr rfl

theorem slotStep_of_none {slot : SessionSlot} {turn : SlotTurn}
    (h : (slotStep (some slot) turn).1 = none) :
    let session := ((slot.service turn.atService turn.io).1.flush turn.io).1.session
    slotStep (some slot) turn = (none, slot.serviced turn.atService turn.io ++
      [.removed session.held.elems
        (written turn.atRemoval (disconnect session turn.atRemoval).1)]) := by
  rcases slotStep_cases slot turn with ⟨-, hr⟩ | hr
  · rw [hr] at h
    cases h
  · exact hr

theorem slotStep_of_some {slot : SessionSlot} {turn : SlotTurn}
    (h : (slotStep (some slot) turn).1 ≠ none) : slotStep (some slot) turn =
      (some ((slot.service turn.atService turn.io).1.flush turn.io).1,
        slot.serviced turn.atService turn.io) := by
  rcases slotStep_cases slot turn with ⟨-, hr⟩ | hr
  · exact hr
  · rw [hr] at h
    exact absurd rfl h

/-- The runtime when the service pass of a turn has come to a position. -/
def Runtime.beforeService (rt : Runtime) (turn : Turn) (i : ℕ) : Runtime :=
  (servicePass turn.io i (rt.acceptPending turn.pending)).1

/-- In a turn of the loop over any number of clients, each slot is serviced and flushed as by
itself, and collected for its removal exactly when its own turn ends it. -/
theorem Runtime.passes_slot {rt : Runtime} (turn : Turn) {i : ℕ} {slot : SessionSlot}
    (h : rt.sessions[i]? = some slot) :
    let d := (rt.beforeService turn i).device
    (rt.beforeService turn i).sessions[i]? = some slot ∧
      (rt.passes turn).1.sessions[i]? =
        some ((slot.service d (turn.io i)).1.flush (turn.io i)).1 ∧
      ∀ d', (∃ reason, (i, reason) ∈ (rt.passes turn).2.1 ++ (rt.passes turn).2.2) ↔
        (slotStep (some slot) ⟨turn.io i, d, d'⟩).1 = none := by
  intro d
  have hi : i < rt.sessions.length := (List.getElem?_eq_some_iff.mp h).1
  have hacc : (rt.acceptPending turn.pending).sessions[i]? = some slot := by
    obtain ⟨fds, hfds⟩ := acceptPending_eq rt turn.pending
    rw [hfds, List.getElem?_append_left hi, h]
  obtain ⟨hs, hsno, hsafter, hscol⟩ := pass_slot (serviceAt_visits turn.io)
    (fun _ _ hj => serviceAt_other hj) (rt.acceptPending turn.pending) rt.sessions.length hi
  rw [hacc] at hs
  rw [serviceAt_eq hs] at hsafter hscol
  have hserviced : ((rt.acceptPending turn.pending).servicePass turn.io
      rt.sessions.length).1.sessions[i]? = some (slot.service d (turn.io i)).1 := by
    refine Eq.trans hsafter ?_
    simp [(List.getElem?_eq_some_iff.mp hs).1, d, beforeService, servicePass]
  obtain ⟨hf, hfno, hfafter, hfcol⟩ := pass_slot (flushAt_visits turn.io)
    (fun _ _ hj => flushAt_other hj)
    ((rt.acceptPending turn.pending).servicePass turn.io rt.sessions.length).1
    rt.sessions.length hi
  rw [hserviced] at hf
  rw [flushAt_eq hf] at hfafter hfcol
  refine ⟨hs, ?_, ?_⟩
  · refine Eq.trans hfafter ?_
    simp [(List.getElem?_eq_some_iff.mp hf).1]
  · have hcollected : ∀ reason, (i, reason) ∈ (rt.passes turn).2.1 ++ (rt.passes turn).2.2 ↔
        (slot.service d (turn.io i)).2.2.reason = some reason ∨
          ((slot.service d (turn.io i)).1.flush (turn.io i)).2 = some reason := by
      intro reason
      rw [List.mem_append]
      refine or_congr ((hscol reason).trans ?_) ((hfcol reason).trans ?_)
      · simp [hsno reason, d, beforeService, servicePass]
      · simp [hfno reason]
    simp [hcollected, slotStep_eq_none_iff, Option.isSome_iff_exists, exists_or]

/-- The outcomes after which a connection is torn down. -/
def Outcome.Ends : Outcome → Prop
  | .replyAndClose _ | .close => True
  | .reply _ | .keep => False

def LogEntry.Ends : LogEntry → Prop
  | .processed _ outcome _ => outcome.Ends
  | .removed _ _ => False

/-- A HELLO with the protocol's version has been processed. -/
def Greeted (log : List LogEntry) : Prop :=
  ∃ name events, .processed (.hello protocolVersion name) .keep events ∈ log

/-- A HELLO with the protocol's version and then an OPEN_SESSION have been processed. -/
def Opened (log : List LogEntry) : Prop :=
  ∃ name events events', [.processed (.hello protocolVersion name) .keep events,
    .processed .openSession (.reply .ok) events'].Sublist log

/-- What may be done for a session after what has been done before: events are written only
after the handshake, an outcome that closes is followed by nothing but the removal and the
releases of the keys the session holds, and nothing follows the removal. -/
structure Lawful (before : List LogEntry) (entry : LogEntry) : Prop where
  opened : entry.events ≠ [] → Opened before
  ended : ∀ e ∈ before, e.Ends → ∃ held events, entry = .removed held events ∧
    ∀ event ∈ events, event.value = 0 ∧ event.code ∈ held
  last : ∀ held events, .removed held events ∉ before

section Message

variable (allowed : Bool) (s : ClientSession) (d : RealDevice) (msg : Message)

/-- Only a session that is open writes to the device, or comes to hold keys. -/
theorem processMessage_gated :
    (written d (processMessage allowed s d msg).2.1 ≠ [] → s.sessionOpen = true) ∧
      ((processMessage allowed s d msg).1.held ≠ s.held → s.sessionOpen = true) := by
  have he := processMessage_effect allowed s d.dev msg
  change (written d (processMessage allowed s ⟨d.dev⟩ msg).2.1 ≠ [] → _) ∧
    ((processMessage allowed s (⟨d.dev⟩ : RealDevice) msg).1.held ≠ _ → _)
  generalize processMessage allowed s (⟨d.dev⟩ : RealDevice) msg = r at he ⊢
  obtain ⟨s', ⟨d'⟩, out⟩ := r
  dsimp only at he ⊢
  cases he with
  | quiet _ hheld =>
    exact ⟨fun hw => absurd List.drop_length hw, fun hh => absurd hheld hh⟩
  | press _ hr | pressLost _ hr | release _ hr | releaseLost _ hr | again _ hr | againLost _ hr =>
    exact ⟨fun _ => hr.1, fun _ => hr.1⟩
  | releaseAll _ hr => exact ⟨fun _ => hr, fun _ => hr⟩

theorem processMessage_written : (processMessage allowed s d msg).2.1.dev.fd.log =
    d.dev.fd.log ++ written d (processMessage allowed s d msg).2.1 := by
  have he := processMessage_effect allowed s d.dev msg
  have hprefix : d.dev.fd.log <+: (processMessage allowed s (⟨d.dev⟩ : RealDevice) msg).2.1.dev.fd.log := by
    generalize (processMessage allowed s (⟨d.dev⟩ : RealDevice) msg).1 = s' at he
    generalize (processMessage allowed s (⟨d.dev⟩ : RealDevice) msg).2.1.dev = d' at he ⊢
    cases he with
    | quiet | pressLost | releaseLost | againLost => exact List.prefix_rfl
    | press | release | again => exact List.prefix_append _ _
    | releaseAll =>
      obtain ⟨released, hlog, -⟩ := d.dev.releaseKeys_writes s.held.elems
      rw [hlog]
      exact List.prefix_append _ _
  obtain ⟨events, hevents⟩ := hprefix
  rw [written, ← hevents, List.drop_left]

theorem disconnect_written : (disconnect s d).1.dev.fd.log =
    d.dev.fd.log ++ written d (disconnect s d).1 := by
  obtain ⟨released, hlog, -⟩ := d.dev.releaseKeys_writes s.held.elems
  have hdisconnect : (disconnect s d).1.dev.fd.log = _ := hlog
  rw [written, hdisconnect, List.drop_left]

/-- The flags of a session change only by a HELLO, which either has the protocol's version
or closes, and by an OPEN_SESSION after it. -/
theorem processMessage_flags :
    ((processMessage allowed s d msg).1.helloReceived = s.helloReceived ∧
        (processMessage allowed s d msg).1.sessionOpen = s.sessionOpen) ∨
      ((processMessage allowed s d msg).1.sessionOpen = s.sessionOpen ∧
        ((∃ name, msg = .hello protocolVersion name ∧ (processMessage allowed s d msg).2.2 = .keep) ∨
          (processMessage allowed s d msg).2.2.Ends)) ∨
      (msg = .openSession ∧ (processMessage allowed s d msg).2.2 = .reply .ok ∧
        s.helloReceived = true ∧ (processMessage allowed s d msg).1.sessionOpen = true) := by
  cases allowed with
  | false => exact Or.inl ⟨rfl, rfl⟩
  | true =>
    cases msg with
    | hello version name =>
      simp only [processMessage, Bool.not_true, Bool.false_eq_true, if_false]
      split
      · exact Or.inl ⟨rfl, rfl⟩
      split
      · exact Or.inr (Or.inl ⟨rfl, Or.inr trivial⟩)
      · next hv => exact Or.inr (Or.inl ⟨rfl, Or.inl ⟨name, by rw [not_not.mp hv], rfl⟩⟩)
    | openSession =>
      simp only [processMessage, Bool.not_true, Bool.false_eq_true, if_false]
      split
      · exact Or.inl ⟨rfl, rfl⟩
      split
      · exact Or.inl ⟨rfl, rfl⟩
      · next hh _ =>
        have hhello : s.helloReceived = true := by simpa using hh
        exact Or.inr (Or.inr ⟨trivial, rfl, hhello, rfl⟩)
    | keyDown code | keyUp code | keyRepeat code =>
      left
      simp only [processMessage, withKey, Bool.not_true, Bool.false_eq_true, if_false]
      repeat' split
      all_goals exact ⟨rfl, rfl⟩
    | releaseAll =>
      left
      simp only [processMessage, ClientSession.drainHeld, Bool.not_true, Bool.false_eq_true, if_false]
      repeat' split
      all_goals exact ⟨rfl, rfl⟩
    | ping | pong | ok | error => exact Or.inl ⟨rfl, rfl⟩

end Message

/-- The reading goes on only after an outcome that does not close; it ends with the slot
closing. -/
theorem processOne_cases (slot : SessionSlot) (d : RealDevice) (allowed : Bool) (msg : Message) :
    let r := processMessage allowed slot.session d msg
    let one := slot.processOne d allowed msg
    one.1.session = r.1 ∧ one.2.1 = r.2.1 ∧
      ((one.2.2 = none ∧ ¬ r.2.2.Ends ∧ one.1.closeAfterFlush = slot.closeAfterFlush) ∨
        ∃ result, one.2.2 = some result ∧
          ¬ (result.reason = none ∧ one.1.closeAfterFlush = false)) := by
  simp only [SessionSlot.processOne]
  cases (processMessage allowed slot.session d msg).2.2 with
  | keep => exact ⟨rfl, rfl, Or.inl ⟨rfl, id, rfl⟩⟩
  | close => exact ⟨rfl, rfl, Or.inr ⟨_, rfl, fun h => by cases h.1⟩⟩
  | reply reply =>
    have hq := SessionSlot.queueReply_frame
      { slot with session := (processMessage allowed slot.session d msg).1 } reply
    dsimp only
    generalize SessionSlot.queueReply _ reply = q at hq ⊢
    obtain ⟨slot', result⟩ := q
    obtain ⟨hs, hc⟩ := hq
    cases result with
    | ok u => exact ⟨hs, rfl, Or.inl ⟨rfl, id, hc⟩⟩
    | error e => exact ⟨hs, rfl, Or.inr ⟨_, rfl, fun h => by cases h.1⟩⟩
  | replyAndClose reply =>
    have hq := SessionSlot.queueReply_frame
      { slot with session := (processMessage allowed slot.session d msg).1 } reply
    dsimp only
    generalize SessionSlot.queueReply _ reply = q at hq ⊢
    obtain ⟨slot', result⟩ := q
    obtain ⟨hs, -⟩ := hq
    cases result with
    | ok u => exact ⟨hs, rfl, Or.inr ⟨_, rfl, fun h => by cases h.2⟩⟩
    | error e => exact ⟨hs, rfl, Or.inr ⟨_, rfl, fun h => by cases h.1⟩⟩

/-- The messages of one read write exactly their events. -/
theorem processMessages_written (slot : SessionSlot) (d : RealDevice) (allowed : ℕ → Bool)
    (msgs : List Message) : (slot.processMessages d allowed msgs).2.1.dev.fd.log =
      d.dev.fd.log ++ (slot.processed d allowed msgs).flatMap LogEntry.events := by
  induction msgs generalizing slot d allowed with
  | nil => simp [SessionSlot.processMessages, SessionSlot.processed]
  | cons msg msgs ih =>
    have hmsg := processMessage_written (allowed 0) slot.session d msg
    obtain ⟨-, hd, hcases⟩ := processOne_cases slot d (allowed 0) msg
    rw [SessionSlot.processMessages_cons, SessionSlot.processed, List.flatMap_cons,
      LogEntry.events, ← List.append_assoc, ← hmsg]
    generalize slot.processOne d (allowed 0) msg = one at hd hcases ⊢
    obtain ⟨slot', d', result⟩ := one
    rw [← show d' = _ from hd]
    cases result with
    | none => exact ih slot' d' _
    | some result => simp

/-- Servicing a slot processes no message, and then its session and the device stay and it goes on
as it was or is closed; or it processes those of one read. -/
theorem SessionSlot.service_cases (slot : SessionSlot) (d : RealDevice) (io : ClientIo) :
    (slot.serviced d io = [] ∧ (slot.service d io).2.1 = d ∧
      (slot.service d io).1.session = slot.session ∧
      ((slot.service d io).2.2.reason = none →
        (slot.service d io).1.closeAfterFlush = slot.closeAfterFlush)) ∨
    ∃ decoder msgs, slot.closeAfterFlush = false ∧
      slot.service d io =
        SessionSlot.processMessages { slot with decoder := decoder } d io.allowed msgs ∧
      slot.serviced d io = { slot with decoder := decoder }.processed d io.allowed msgs := by
  obtain ⟨stream, session, decoder, out, closing, reason⟩ := slot
  unfold SessionSlot.service SessionSlot.serviced
  cases io.revents with
  | none => exact .inl ⟨rfl, rfl, rfl, fun _ => rfl⟩
  | some flags =>
    cases closing with
    | true => exact .inl ⟨rfl, rfl, rfl, fun _ => rfl⟩
    | false =>
      simp only [SessionSlot.serviceClient, Bool.false_eq_true, if_false]
      cases io.read with
      | wouldBlock => exact .inl ⟨rfl, rfl, rfl, fun _ => rfl⟩
      | failed e => exact .inl ⟨rfl, rfl, rfl, nofun⟩
      | bytes data =>
        cases data with
        | nil => exact .inl ⟨rfl, rfl, rfl, nofun⟩
        | cons byte data =>
          dsimp only
          cases decoder.push (byte :: data) with
          | mk decoder' result =>
            cases result with
            | error e => exact .inl ⟨rfl, rfl, rfl, nofun⟩
            | ok msgs => exact .inr ⟨decoder', msgs, trivial, rfl, rfl⟩

/-- Servicing a slot writes exactly the events of the messages it processes. -/
theorem service_written (slot : SessionSlot) (d : RealDevice) (io : ClientIo) :
    (slot.service d io).2.1.dev.fd.log =
      d.dev.fd.log ++ (slot.serviced d io).flatMap LogEntry.events := by
  rcases slot.service_cases d io with ⟨hnone, hd, -, -⟩ | ⟨decoder, msgs, -, hservice, hmsgs⟩
  · rw [hnone, hd, List.flatMap_nil, List.append_nil]
  · rw [hservice, hmsgs]
    exact processMessages_written _ d io.allowed msgs

theorem Opened.append {log : List LogEntry} (h : Opened log) (more : List LogEntry) :
    Opened (log ++ more) := by
  obtain ⟨name, events, events', hs⟩ := h
  exact ⟨name, events, events', hs.trans (List.sublist_append_left log more)⟩

/-- What a log says about its session: its flags, and whether it is still being read. -/
structure Knows (log : List LogEntry) (s : ClientSession) (live : Prop) : Prop where
  lawful : Throughout Lawful log
  present : ∀ held events, .removed held events ∉ log
  opened : s.sessionOpen = true → Opened log
  held : s.held ≠ .new → s.sessionOpen = true
  greeted : live → s.helloReceived = true → Greeted log
  running : live → ∀ e ∈ log, ¬ e.Ends

namespace Knows

variable {log : List LogEntry} {s : ClientSession} {live : Prop}

theorem new (maxHeldKeys : ℕ) : Knows [] (.new maxHeldKeys) True where
  lawful := throughout_nil
  present _ _ := List.not_mem_nil
  opened h := Bool.noConfusion h
  held h := absurd rfl h
  greeted _ h := Bool.noConfusion h
  running _ _ h := absurd h List.not_mem_nil

/-- Processing a message keeps the log lawful, and the log keeps knowing the session. -/
theorem message (h : Knows log s True) (allowed : Bool) (d : RealDevice) (msg : Message) :
    let r := processMessage allowed s d msg
    Knows (log ++ [.processed msg r.2.2 (written d r.2.1)]) r.1 (¬ r.2.2.Ends) := by
  intro r
  obtain ⟨hwrites, hheld⟩ := processMessage_gated allowed s d msg
  have hflags := processMessage_flags allowed s d msg
  have hopen : Opened log → Opened (log ++ [.processed msg r.2.2 (written d r.2.1)]) :=
    fun ho => ho.append _
  refine ⟨?_, ?_, ?_, ?_, ?_, ?_⟩
  · apply h.lawful.concat
    refine ⟨fun hw => h.opened (hwrites hw), ?_, h.present⟩
    exact fun e he hends => absurd hends (h.running trivial e he)
  · intro held events hm
    rcases List.mem_append.mp hm with hm | hm
    · exact h.present held events hm
    · simp at hm
  · intro ho
    rcases hflags with ⟨-, he⟩ | ⟨he, -⟩ | ⟨rfl, hreply, hhello, -⟩
    · exact hopen (h.opened (he ▸ ho))
    · exact hopen (h.opened (he ▸ ho))
    · obtain ⟨name, events, hm⟩ := h.greeted trivial hhello
      rw [show r.2.2 = .reply .ok from hreply]
      exact ⟨name, events, _, (List.singleton_sublist.mpr hm).append (List.Sublist.refl _)⟩
  · intro hn
    have hs : s.sessionOpen = true := by
      by_cases he : r.1.held = s.held
      · exact h.held (he ▸ hn)
      · exact hheld he
    rcases hflags with ⟨-, he⟩ | ⟨he, -⟩ | ⟨-, -, -, he⟩
    · exact he.trans hs
    · exact he.trans hs
    · exact he
  · intro hlive hhello
    have hold : s.helloReceived = true → Greeted (log ++ [.processed msg r.2.2 (written d r.2.1)]) := by
      intro hs
      obtain ⟨name, events, hm⟩ := h.greeted trivial hs
      exact ⟨name, events, List.mem_append_left _ hm⟩
    rcases hflags with ⟨he, -⟩ | ⟨-, ⟨name, rfl, hkeep⟩ | hends⟩ | ⟨-, -, hs, -⟩
    · exact hold (he ▸ hhello)
    · rw [show r.2.2 = .keep from hkeep]
      exact ⟨name, _, List.mem_append_right _ List.mem_cons_self⟩
    · exact absurd hends hlive
    · exact hold hs
  · intro hlive e hm
    rcases List.mem_append.mp hm with hm | hm
    · exact h.running trivial e hm
    · rw [List.mem_singleton.mp hm]
      exact hlive

theorem of_imp {live' : Prop} (h : Knows log s live) (himp : live' → live) : Knows log s live' where
  lawful := h.lawful
  present := h.present
  opened := h.opened
  held := h.held
  greeted hl := h.greeted (himp hl)
  running hl := h.running (himp hl)

/-- The messages of one read keep the log lawful; the session is read on unless one of them
closes it. -/
theorem processMessages {slot : SessionSlot} (h : Knows log slot.session True) (d : RealDevice)
    (allowed : ℕ → Bool) (msgs : List Message) :
    let r := slot.processMessages d allowed msgs
    Knows (log ++ slot.processed d allowed msgs) r.1.session
      (r.2.2.reason = none ∧ r.1.closeAfterFlush = false) := by
  induction msgs generalizing log slot d allowed with
  | nil =>
    simp only [SessionSlot.processMessages, SessionSlot.processed, List.append_nil]
    exact h.of_imp fun _ => trivial
  | cons msg msgs ih =>
    have hmsg := h.message (allowed 0) d msg
    obtain ⟨hs, hd, hcases⟩ := processOne_cases slot d (allowed 0) msg
    rw [SessionSlot.processMessages_cons, SessionSlot.processed, List.append_cons]
    generalize slot.processOne d (allowed 0) msg = one at hs hd hcases ⊢
    obtain ⟨slot', d', result⟩ := one
    dsimp only at hs hd hcases hmsg
    rw [← hs] at hmsg
    rcases hcases with ⟨rfl, hends, -⟩ | ⟨result, rfl, hlive⟩
    · exact ih (hmsg.of_imp fun _ => hends) d' _
    · rw [List.append_nil]
      exact hmsg.of_imp fun hl => absurd hl hlive

theorem service {slot : SessionSlot} (h : Knows log slot.session (slot.closeAfterFlush = false))
    (d : RealDevice) (io : ClientIo) :
    let r := slot.service d io
    Knows (log ++ slot.serviced d io) r.1.session
      (r.2.2.reason = none ∧ r.1.closeAfterFlush = false) := by
  intro r
  rcases slot.service_cases d io with ⟨hnone, -, hs, hlive⟩ | ⟨decoder, msgs, hopen, hr, hmsgs⟩
  · rw [hnone, List.append_nil, hs]
    refine h.of_imp ?_
    rintro ⟨hreason, hflush⟩
    exact (hlive hreason).symm.trans hflush
  · have hread : Knows log { slot with decoder := decoder }.session True := h.of_imp fun _ => hopen
    have hprocessed := hread.processMessages d io.allowed msgs
    rw [← hr, ← hmsgs] at hprocessed
    exact hprocessed

/-- The removal is lawful: it releases some of the keys the session holds. -/
theorem removal (h : Knows log s live) (d : RealDevice) :
    Throughout Lawful (log ++ [.removed s.held.elems (written d (disconnect s d).1)]) := by
  obtain ⟨released, hlog, hsub⟩ := d.dev.releaseKeys_writes s.held.elems
  have hw : written d (disconnect s d).1 = released.map fun code => ⟨code, 0⟩ := by
    rw [written, show (disconnect s d).1.dev = (d.dev.releaseKeys s.held.elems).1 from rfl, hlog,
      List.drop_left]
  rw [hw]
  apply h.lawful.concat
  refine ⟨?_, ?_, h.present⟩
  · intro hne
    apply h.opened
    apply h.held
    intro hnew
    rw [hnew] at hsub
    have hnil : released = [] := List.subset_nil.mp hsub
    exact hne (by rw [LogEntry.events, hnil]; rfl)
  · rintro e - -
    refine ⟨_, _, rfl, ?_⟩
    intro event hevent
    obtain ⟨code, hcode, rfl⟩ := List.mem_map.mp hevent
    exact ⟨rfl, hsub hcode⟩

end Knows

/-- The log of a slot, as far as it goes on. -/
def Accounts (log : List LogEntry) : Option SessionSlot → Prop
  | none => Throughout Lawful log
  | some slot => Knows log slot.session (slot.closeAfterFlush = false)

theorem Accounts.step {log : List LogEntry} {st : Option SessionSlot} (h : Accounts log st)
    (turn : SlotTurn) : Accounts (log ++ (slotStep st turn).2) (slotStep st turn).1 := by
  cases st with
  | none => simpa [slotStep] using h
  | some slot =>
    have hs := Knows.service h turn.atService turn.io
    obtain ⟨hsession, hclose⟩ :=
      SessionSlot.flush_frame (slot.service turn.atService turn.io).1 turn.io
    rcases slotStep_cases slot turn with ⟨hreason, hr⟩ | hr
    · rw [hr, Accounts, hsession, hclose]
      exact hs.of_imp fun hc => ⟨hreason, hc⟩
    · rw [hr, Accounts, ← List.append_assoc, hsession]
      exact hs.removal _

theorem Accounts.lawful {log : List LogEntry} {st : Option SessionSlot} (h : Accounts log st) :
    Throughout Lawful log := by
  cases st with
  | none => exact h
  | some slot => exact Knows.lawful h

end Ferrokey.Daemon
