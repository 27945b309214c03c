import Ferrokey.Collections.Removal
import Ferrokey.Daemon.Broker
import Ferrokey.Protocol.Decoder

/-! # The serve loop

One turn of the broker's event loop, after `poll` has returned: new clients are
accepted, readable clients are serviced, pending replies are flushed, and the
sessions that must close are removed with their keys. What the sockets answer in
a turn is its input.
-/

namespace Ferrokey.Daemon

open Uinput Protocol Collections

/-- Hard cap on the reply bytes of a session that are not yet written. -/
def maxPendingOut : ℕ := 64 * 1024

/-- A client's socket: its descriptor and the bytes the peer has been sent. -/
structure UnixStream where
  fd : ℕ
  sent : List UInt8
  deriving DecidableEq

/-- One connected client with its decoding state and its pending replies. -/
structure SessionSlot where
  stream : UnixStream
  session : ClientSession
  decoder : Decoder
  out : List UInt8
  closeAfterFlush : Bool
  closeReason : Option String
  deriving DecidableEq

inductive ReadResult where
  | bytes (data : List UInt8)
  | wouldBlock
  | failed (e : String)

inductive WriteResult where
  | accepted (n : ℕ)
  | wouldBlock
  | failed (e : String)

inductive ServiceResult where
  | alive
  | closed (reason : String)

namespace SessionSlot

def new (fd : ℕ) (session : ClientSession) : SessionSlot :=
  ⟨⟨fd, []⟩, session, .new, [], false, none⟩

def queueReply (slot : SessionSlot) (msg : Message) : SessionSlot × Except String Unit :=
  match encode msg with
  | .error e => (slot, .error e.display)
  | .ok frame =>
    if maxPendingOut < slot.out.length + frame.length then
      (slot, .error "pending reply buffer exceeded the hard cap")
    else ({ slot with out := slot.out ++ frame }, .ok ())

/-- Flush as much pending output as the socket accepts. A socket that has no more answers
would block. -/
def flushOut (slot : SessionSlot) : List WriteResult → SessionSlot × Except String Bool
  | [] => (slot, .ok slot.out.isEmpty)
  | w :: ws =>
    if slot.out.isEmpty then (slot, .ok true)
    else
      match w with
      | .accepted 0 => (slot, .error "write returned 0")
      | .accepted n =>
        flushOut { slot with
          stream := { slot.stream with sent := slot.stream.sent ++ slot.out.take n }
          out := slot.out.drop n } ws
      | .wouldBlock => (slot, .ok false)
      | .failed e => (slot, .error e)

/-- A reply is queued as a whole frame for which there is room, or it is rejected and nothing is
changed. -/
theorem queueReply_cases (slot : SessionSlot) (msg : Message) :
    (∃ frame, encode msg = .ok frame ∧ slot.out.length + frame.length ≤ maxPendingOut ∧
      slot.queueReply msg = ({ slot with out := slot.out ++ frame }, .ok ())) ∨
    ∃ e, slot.queueReply msg = (slot, .error e) := by
  unfold queueReply
  split
  next e hencode => exact .inr ⟨_, rfl⟩
  next frame hencode =>
    split
    · exact .inr ⟨_, rfl⟩
    next hroom => exact .inl ⟨frame, hencode, Nat.not_lt.mp hroom, rfl⟩

/-- A flush sends bytes from the front of the queue, and takes these from it. -/
theorem flushOut_fst (slot : SessionSlot) (writes : List WriteResult) :
    ∃ n, (slot.flushOut writes).1 =
      { slot with
        stream := { slot.stream with sent := slot.stream.sent ++ slot.out.take n }
        out := slot.out.drop n } := by
  have hnone : slot =
      { slot with
        stream := { slot.stream with sent := slot.stream.sent ++ slot.out.take 0 }
        out := slot.out.drop 0 } := by
    simp
  induction writes generalizing slot with
  | nil => exact ⟨0, hnone⟩
  | cons w writes ih =>
    unfold flushOut
    split
    · exact ⟨0, hnone⟩
    split
    · exact ⟨0, hnone⟩
    next n _ =>
      obtain ⟨m, hm⟩ := ih { slot with
        stream := { slot.stream with sent := slot.stream.sent ++ slot.out.take n }
        out := slot.out.drop n } (by simp)
      refine ⟨n + m, hm.trans ?_⟩
      simp [List.take_add]
    · exact ⟨0, hnone⟩
    · exact ⟨0, hnone⟩

def frameReason : Message → String
  | .error code detail => s!"error frame {code.debug}: {detail}"
  | other => s!"close after reply {other.debug}"

section

variable {δ : Type} [KeyDevice δ]

/-- Process the messages of one read in order; `allowed` are the rate limiter's answers. -/
def processMessages (slot : SessionSlot) (d : δ) :
    (ℕ → Bool) → List Message → SessionSlot × δ × ServiceResult
  | _, [] => (slot, d, .alive)
  | allowed, msg :: msgs =>
    let r := processMessage (allowed 0) slot.session d msg
    let slot := { slot with session := r.1 }
    match r.2.2 with
    | .keep => slot.processMessages r.2.1 (fun n => allowed (n + 1)) msgs
    | .reply reply =>
      match slot.queueReply reply with
      | (slot, .ok ()) => slot.processMessages r.2.1 (fun n => allowed (n + 1)) msgs
      | (slot, .error e) => (slot, r.2.1, .closed s!"reply queue error: {e}")
    | .replyAndClose reply =>
      match slot.queueReply reply with
      | (slot, .ok ()) =>
        ({ slot with closeAfterFlush := true, closeReason := some (frameReason reply) },
          r.2.1, .alive)
      | (slot, .error e) => (slot, r.2.1, .closed s!"reply queue error: {e}")
    | .close => (slot, r.2.1, .closed "handshake gate close")

def serviceClient (slot : SessionSlot) (d : δ) (read : ReadResult) (allowed : ℕ → Bool) :
    SessionSlot × δ × ServiceResult :=
  match read with
  | .wouldBlock => (slot, d, .alive)
  | .failed e => (slot, d, .closed s!"read error: {e}")
  | .bytes [] => (slot, d, .closed "peer closed (EOF)")
  | .bytes data =>
    match slot.decoder.push data with
    | (decoder, .error e) =>
      ({ slot with decoder := decoder }, d, .closed s!"protocol error: {e.display}")
    | (decoder, .ok msgs) => processMessages { slot with decoder := decoder } d allowed msgs

end

end SessionSlot

structure Runtime where
  device : RealDevice
  sessions : List SessionSlot
  maxConnections : ℕ
  maxHeldKeys : ℕ

/-- A pending connection: its descriptor, and whether its peer is authorized. -/
structure Pending where
  fd : ℕ
  authorized : Bool

/-- What the sockets of one client answer in a turn. `revents` is what `poll` reported for
it, and whether the client counts as writable. -/
structure ClientIo where
  revents : Option Bool
  read : ReadResult
  allowed : ℕ → Bool
  writes : List WriteResult

/-- What one turn of the loop meets. -/
structure Turn where
  pending : List Pending
  io : ℕ → ClientIo

namespace Runtime

def acceptPending (rt : Runtime) : List Pending → Runtime
  | [] => rt
  | p :: ps =>
    if rt.maxConnections ≤ rt.sessions.length then rt.acceptPending ps
    else if p.authorized then
      let slot := SessionSlot.new p.fd (.new rt.maxHeldKeys)
      { rt with sessions := rt.sessions ++ [slot] }.acceptPending ps
    else rt.acceptPending ps

/-- Service the client at a position; if it must close, its position is collected. -/
def serviceAt (io : ℕ → ClientIo) (acc : Runtime × List (ℕ × String)) (i : ℕ) :
    Runtime × List (ℕ × String) :=
  match (io i).revents, acc.1.sessions[i]? with
  | some _, some slot =>
    if slot.closeAfterFlush then acc
    else
      let r := slot.serviceClient acc.1.device (io i).read (io i).allowed
      let rt := { acc.1 with device := r.2.1, sessions := acc.1.sessions.set i r.1 }
      match r.2.2 with
      | .alive => (rt, acc.2)
      | .closed reason => (rt, acc.2 ++ [(i, reason)])
  | _, _ => acc

/-- Flush the client at a position; if it is done or broken, its position is collected. -/
def flushAt (io : ℕ → ClientIo) (acc : Runtime × List (ℕ × String)) (i : ℕ) :
    Runtime × List (ℕ × String) :=
  match acc.1.sessions[i]? with
  | none => acc
  | some slot =>
    let writable := (io i).revents.getD false
    if slot.out.isEmpty && !slot.closeAfterFlush then acc
    else if !writable && !slot.closeAfterFlush then acc
    else
      match slot.flushOut (io i).writes with
      | (slot, .ok true) =>
        if slot.closeAfterFlush then
          let reason := slot.closeReason.getD "close after error frame"
          ({ acc.1 with sessions := acc.1.sessions.set i { slot with closeReason := none } },
            acc.2 ++ [(i, reason)])
        else ({ acc.1 with sessions := acc.1.sessions.set i slot }, acc.2)
      | (slot, .ok false) => ({ acc.1 with sessions := acc.1.sessions.set i slot }, acc.2)
      | (slot, .error e) =>
        ({ acc.1 with sessions := acc.1.sessions.set i slot },
          acc.2 ++ [(i, s!"write failed: {e}")])

def servicePass (io : ℕ → ClientIo) (n : ℕ) (rt : Runtime) : Runtime × List (ℕ × String) :=
  (List.range n).foldl (serviceAt io) (rt, [])

def flushPass (io : ℕ → ClientIo) (n : ℕ) (rt : Runtime) : Runtime × List (ℕ × String) :=
  (List.range n).foldl (flushAt io) (rt, [])

/-- The collected closings, the first entry of each position only. -/
def firstSeen (toClose : List (ℕ × String)) : List (ℕ × String) :=
  toClose.foldl (fun seen entry => if seen.any (·.1 == entry.1) then seen else seen ++ [entry]) []

/-- Remove the session at a position and release its keys; `none` is the panic of an index
past the end. -/
def remove (rt : Runtime) (idx : ℕ) : Option Runtime :=
  match rt.sessions[idx]? with
  | none => none
  | some slot =>
    some { rt with
      device := (disconnect slot.session rt.device).1
      sessions := rt.sessions.eraseIdx idx }

def removeEach (rt : Runtime) : List ℕ → Option Runtime
  | [] => some rt
  | idx :: is => (rt.remove idx).bind fun rt => rt.removeEach is

/-- Remove the closed sessions, in the reverse of the order they were collected in. -/
def removalPass (rt : Runtime) (toClose : List (ℕ × String)) : Option Runtime :=
  rt.removeEach ((firstSeen toClose).reverse.map Prod.fst)

/-- The two passes of a turn: the runtime before the removal, and what each collected. -/
def passes (rt : Runtime) (turn : Turn) : Runtime × List (ℕ × String) × List (ℕ × String) :=
  let n := rt.sessions.length
  let s := servicePass turn.io n (rt.acceptPending turn.pending)
  let f := flushPass turn.io n s.1
  (f.1, s.2, f.2)

def serveTurn (rt : Runtime) (turn : Turn) : Option Runtime :=
  let p := rt.passes turn
  p.1.removalPass (p.2.1 ++ p.2.2)

end Runtime

end Ferrokey.Daemon
