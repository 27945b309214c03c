import Ferrokey.Core.Driver
import Ferrokey.Protocol.Message
import Ferrokey.Uinput.Device

/-! # The daemon link

The link is the system destination's sink. It owns the connection to the daemon: it
connects when it is due, sends every key event as a message, and drops the
connection when a send or a read fails. What the network answers is part of the
state, with the connections that are over and what was sent on them. Times are in
milliseconds.
-/

namespace Ferrokey.App

open Machine Protocol Uinput

/-- A connection, with the messages sent on it. -/
structure Client where
  sent : List Message
  deriving DecidableEq

inductive LinkState where
  | disconnected | connecting | connected
  | rejected (msg : String)
  deriving DecidableEq, Repr

inductive ConnectResult where
  | connected
  | handshakeFailed (e : String)
  | failed (e : String)
  deriving DecidableEq, Repr

/-- What the clock and the daemon answer when the link turns to them: the time before and
after, and how connecting, sending and reading would go. -/
structure LinkIo where
  now : ℕ
  later : ℕ
  connect : ConnectResult
  send : Option String
  read : Except String (List Message)

/-- The network: its answers in turn, and the connections that are over. -/
structure Network where
  answer : ℕ → LinkIo
  asked : ℕ
  closed : List Client

structure DaemonLink where
  client : Option Client
  state : LinkState
  nextAttempt : ℕ
  backoff : ℕ
  lastError : Option String
  network : Network

def clientName : String := "ferrokey/0.1.7"

namespace DaemonLink

def new (answer : ℕ → LinkIo) (start : ℕ) : DaemonLink :=
  ⟨none, .disconnected, start, 100, none, ⟨answer, 0, []⟩⟩

def isConnected (l : DaemonLink) : Bool := l.client.isSome

/-- The network's next answer. -/
def io (l : DaemonLink) : LinkIo := l.network.answer l.network.asked

def ask (l : DaemonLink) : DaemonLink :=
  { l with network := { l.network with asked := l.network.asked + 1 } }

def scheduleRetry (l : DaemonLink) (now : ℕ) : DaemonLink :=
  { l with nextAttempt := now + l.backoff, backoff := min (l.backoff * 2) 5000 }

/-- Try to connect, if that is due. -/
def pollConnect (l : DaemonLink) : DaemonLink :=
  if l.client.isSome || decide (l.io.now < l.nextAttempt) then l.ask
  else
    match l.io.connect with
    | .connected =>
      { l.ask with
        client := some ⟨[.hello protocolVersion clientName, .openSession]⟩
        state := .connected
        backoff := 100 }
    | .handshakeFailed e =>
      { l.ask with
        lastError := some s!"handshake failed: {e}"
        state := .rejected s!"handshake failed: {e}" }.scheduleRetry l.io.later
    | .failed e =>
      { l.ask with
        lastError := some e
        state := .disconnected }.scheduleRetry l.io.later

/-- The connection was lost: drop the client and schedule a reconnect. -/
def dropped (l : DaemonLink) (now : ℕ) : DaemonLink :=
  { l with
    client := none
    state := .disconnected
    network := { l.network with closed := l.network.closed ++ l.client.toList } }.scheduleRetry now

def noteError (l : DaemonLink) : Message → DaemonLink
  | .error code detail =>
    let text := s!"{code.debug}: {detail}"
    { l with
      lastError := some text
      state := if code = .unauthorized then .rejected text else l.state }
  | _ => l

/-- Read the daemon's messages; a failing read drops the connection. -/
def pollServer (l : DaemonLink) : DaemonLink × Bool :=
  match l.client with
  | none => (l, false)
  | some _ =>
    match l.io.read with
    | .ok msgs => (msgs.foldl noteError l.ask, true)
    | .error _ => (l.ask.dropped l.io.later, false)

def sendMessage (l : DaemonLink) (msg : Message) : DaemonLink × Except SinkError Unit :=
  let l := l.pollConnect
  match l.client with
  | none => (l, .error ⟨"daemon offline"⟩)
  | some client =>
    match l.io.send with
    | none => ({ l.ask with client := some ⟨client.sent ++ [msg]⟩ }, .ok ())
    | some e => (l.ask.dropped l.io.later, .error ⟨s!"daemon send failed: {e}"⟩)

def ping (l : DaemonLink) : DaemonLink × Except SinkError Unit := l.sendMessage (.ping 0)

instance linkSink : KeySink DaemonLink where
  keyDown l key := l.sendMessage (.keyDown (toLinuxCode key))
  keyUp l key := l.sendMessage (.keyUp (toLinuxCode key))
  keyRepeat l key := l.sendMessage (.keyRepeat (toLinuxCode key))
  releaseAll l := l.sendMessage .releaseAll

end DaemonLink

end Ferrokey.App
