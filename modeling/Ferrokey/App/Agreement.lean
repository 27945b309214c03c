import Ferrokey.App.DaemonLink
import Ferrokey.Core.Tracked
import Ferrokey.Daemon.Acceptance

/-! # Agreement with the daemon

The driver's state outlives the connection and the daemon's session does not. A lost
connection that a read notices leaves keys depressed, and one that a send notices is
followed by a release that may already reconnect. As long as every connection is
established while no key is depressed, each of them carries a stream that the daemon
accepts.
-/

namespace Ferrokey.App

open Machine Protocol Uinput Daemon

namespace Client

def strokes (c : Client) : List (Stroke UInt16) := c.sent.filterMap keyStroke

/-- The key messages sent on the connection go with each other, and as long as its limits
are not reached, a fresh session of the daemon accepts everything sent. -/
structure Accepted (c : Client) : Prop where
  wellFormed : WellFormed c.strokes
  accepted : ∀ maxHeldKeys maxHeld,
    Steps Peer.receive Peer.BelowLimits (.fresh maxHeldKeys maxHeld) c.sent →
      Steps Peer.receive Peer.Accepts (.fresh maxHeldKeys maxHeld) c.sent

def greeting : Client := ⟨[.hello protocolVersion clientName, .openSession]⟩

/-- A connection that starts with the greeting and carries a well-formed stream. -/
structure Sound (c : Client) : Prop where
  greets : ∃ msgs, c.sent = greeting.sent ++ msgs ∧ ∀ msg ∈ msgs, Ordinary msg
  wellFormed : WellFormed c.strokes

theorem Sound.accepted {c : Client} (h : c.Sound) : c.Accepted := by
  refine ⟨h.wellFormed, ?_⟩
  obtain ⟨⟨msgs, hsent, ho⟩, hwf⟩ := h
  rw [strokes, hsent] at hwf
  intro maxHeldKeys maxHeld hb
  rw [hsent] at hb ⊢
  exact (Peer.accepts_fresh_iff maxHeldKeys maxHeld clientName ho hb).mpr hwf

theorem sound_greeting : greeting.Sound := ⟨⟨[], rfl, by simp⟩, trivial⟩

end Client

namespace DaemonLink

/-- The next time it is asked, the link connects. -/
def Connects (l : DaemonLink) : Prop :=
  l.client = none ∧ l.nextAttempt ≤ l.io.now ∧ l.io.connect = .connected

/-- Every connection has been sound, and on the one that is there the given keys are down. -/
structure InStep (l : DaemonLink) (held : Set PhysicalKey) : Prop where
  closed : ∀ c ∈ l.network.closed, c.Sound
  client : ∀ c ∈ l.client, c.Sound ∧ ∀ key, toLinuxCode key ∈ leftDown c.strokes ↔ key ∈ held

variable {l : DaemonLink} {held : Set PhysicalKey}

/-- Connecting starts a connection or leaves the connections as they are. -/
theorem pollConnect_cases (l : DaemonLink) : l.pollConnect.network.closed = l.network.closed ∧
    ((l.Connects ∧ l.pollConnect.client = some .greeting) ∨
      (¬ l.Connects ∧ l.pollConnect.client = l.client)) := by
  unfold pollConnect Connects
  cases hc : l.client with
  | some c => simp [ask, hc]
  | none =>
    by_cases hd : l.io.now < l.nextAttempt
    · simp [ask, hc, hd]
    · cases hr : l.io.connect <;> simp [ask, scheduleRetry, hd, hc, Client.greeting]
      omega

theorem InStep.pollConnect (h : l.InStep held) (hc : l.Connects → held = ∅) :
    l.pollConnect.InStep held := by
  obtain ⟨hclosed, ⟨hdue, hclient⟩ | ⟨-, hclient⟩⟩ := pollConnect_cases l
  · refine ⟨hclosed ▸ h.closed, fun c hm => ?_⟩
    obtain rfl : Client.greeting = c := by simpa [hclient] using hm
    rw [hc hdue]
    exact ⟨Client.sound_greeting, fun key => Iff.rfl⟩
  · exact ⟨hclosed ▸ h.closed, hclient ▸ h.client⟩

/-- Nothing depends on the keys while there is no connection. -/
theorem InStep.of_disconnected (h : l.InStep held) (hn : l.client = none)
    (held' : Set PhysicalKey) : l.InStep held' := by
  refine ⟨h.closed, fun c hm => ?_⟩
  rw [hn] at hm
  cases hm

/-- What a message does with the connections, after the connecting. -/
theorem sendMessage_cases (l : DaemonLink) (msg : Message) :
    (l.pollConnect.client = none ∧ (∃ e, (l.sendMessage msg).2 = .error e) ∧
      (l.sendMessage msg).1 = l.pollConnect) ∨
    ∃ c, l.pollConnect.client = some c ∧
      (((l.sendMessage msg).2 = .ok () ∧ (l.sendMessage msg).1.client = some ⟨c.sent ++ [msg]⟩ ∧
          (l.sendMessage msg).1.network.closed = l.pollConnect.network.closed) ∨
        ((∃ e, (l.sendMessage msg).2 = .error e) ∧ (l.sendMessage msg).1.client = none ∧
          (l.sendMessage msg).1.network.closed = l.pollConnect.network.closed ++ [c])) := by
  unfold sendMessage
  cases hc : l.pollConnect.client with
  | none => exact Or.inl ⟨rfl, by simp [hc], by simp [hc]⟩
  | some c =>
    refine Or.inr ⟨c, rfl, ?_⟩
    cases hs : l.pollConnect.io.send with
    | none => exact Or.inl (by simp [hc, hs, ask])
    | some e => exact Or.inr (by simp [hc, hs, ask, dropped, scheduleRetry])

/-- A sent message is the next of its connection. -/
theorem InStep.sendMessage (h : l.InStep held) (hc : l.Connects → held = ∅) {msg : Message}
    {held' : Set PhysicalKey} (ho : Ordinary msg)
    (hsent : ∀ c : Client, c.Sound → (∀ key, toLinuxCode key ∈ leftDown c.strokes ↔ key ∈ held) →
      WellFormed (Client.strokes ⟨c.sent ++ [msg]⟩) ∧
        ∀ key, toLinuxCode key ∈ leftDown (Client.strokes ⟨c.sent ++ [msg]⟩) ↔ key ∈ held') :
    (l.sendMessage msg).1.InStep held' ∧
      ((l.sendMessage msg).2 = .ok () ↔ (l.sendMessage msg).1.client.isSome = true) := by
  have hp := h.pollConnect hc
  rcases sendMessage_cases l msg with ⟨hnone, ⟨e, herr⟩, hl⟩ |
    ⟨c, hsome, ⟨hok, hclient, hclosed⟩ | ⟨⟨e, herr⟩, hclient, hclosed⟩⟩
  · rw [hl, herr]
    exact ⟨hp.of_disconnected hnone held', by simp [hnone]⟩
  · obtain ⟨hsound, hdown⟩ := hp.client c hsome
    obtain ⟨hwf, hdown'⟩ := hsent c hsound hdown
    refine ⟨⟨hclosed ▸ hp.closed, fun c' hm => ?_⟩, by simp [hok, hclient]⟩
    obtain rfl : Client.mk (c.sent ++ [msg]) = c' := by simpa [hclient] using hm
    obtain ⟨msgs, hgreets, hall⟩ := hsound.greets
    refine ⟨⟨⟨msgs ++ [msg], ?_, ?_⟩, hwf⟩, hdown'⟩
    · rw [hgreets, List.append_assoc]
    · simpa [or_imp, forall_and] using ⟨hall, ho⟩
  · rw [herr]
    refine ⟨⟨?_, by simp [hclient]⟩, by simp [hclient]⟩
    rw [hclosed]
    simpa [or_imp, forall_and] using ⟨hp.closed, (hp.client c hsome).1⟩

/-- A key event that is possible next is sent on its connection, or the connection is lost. -/
theorem InStep.take (h : l.InStep held) (hc : l.Connects → held = ∅) {e : Stroke PhysicalKey}
    (hl : e.Legal held) : (KeySink.take l e).1.InStep (e.after held) ∧
      ((KeySink.take l e).2 = .ok () ↔ (KeySink.take l e).1.client.isSome = true) := by
  have hstroke : ∃ msg, Ordinary msg ∧ keyStroke msg = some (e.map toLinuxCode) ∧
      KeySink.take l e = l.sendMessage msg := by
    cases e with
    | down key => exact ⟨.keyDown (toLinuxCode key), isCapable_toLinuxCode key, rfl, rfl⟩
    | up key => exact ⟨.keyUp (toLinuxCode key), isCapable_toLinuxCode key, rfl, rfl⟩
    | again key => exact ⟨.keyRepeat (toLinuxCode key), isCapable_toLinuxCode key, rfl, rfl⟩
  obtain ⟨msg, ho, hmsg, htake⟩ := hstroke
  rw [htake]
  apply h.sendMessage hc ho
  intro c hsound hdown
  have hstrokes : Client.strokes ⟨c.sent ++ [msg]⟩ = c.strokes ++ [e.map toLinuxCode] := by
    simp [Client.strokes, List.filterMap_append, hmsg]
  rw [hstrokes, wellFormed_append_iff, leftDown_append]
  refine ⟨⟨hsound.wellFormed, (Stroke.legal_map_iff hdown e).mpr hl, trivial⟩, ?_⟩
  exact Stroke.mem_after_map_iff toLinuxCode_injective hdown e

/-- The first event of a delivery may connect; after that the link stays connected, or the
delivery ends. -/
theorem InStep.deliver (h : l.InStep held) {strokes : List (Stroke PhysicalKey)}
    (hc : l.Connects → strokes ≠ [] → held = ∅) (hl : LegalFrom held strokes) :
    (deliver l strokes).1.InStep (leaves held strokes) := by
  induction strokes generalizing l held with
  | nil => exact h
  | cons e strokes ih =>
    obtain ⟨he, hl⟩ := hl
    obtain ⟨hstep, hok⟩ := h.take (fun hd => hc hd (List.cons_ne_nil e strokes)) he
    rw [Ferrokey.deliver]
    cases ht : KeySink.take l e with
    | mk l' result =>
      rw [ht] at hstep hok
      cases result with
      | ok u =>
        refine ih hstep (fun hd => ?_) hl
        have hsome : l'.client.isSome = true := hok.mp rfl
        simp [hd.1] at hsome
      | error err =>
        refine hstep.of_disconnected ?_ _
        simpa using hok

theorem InStep.ping (h : l.InStep held) (hc : l.Connects → held = ∅) : l.ping.1.InStep held := by
  have ho : Ordinary (.ping 0) := trivial
  refine (h.sendMessage hc ho ?_).1
  intro c hsound hdown
  have hstrokes : Client.strokes ⟨c.sent ++ [.ping 0]⟩ = c.strokes := by
    simp [Client.strokes, keyStroke]
  rw [hstrokes]
  exact ⟨hsound.wellFormed, hdown⟩

theorem noteErrors_connections (msgs : List Message) (l : DaemonLink) :
    (msgs.foldl noteError l).client = l.client ∧
      (msgs.foldl noteError l).network = l.network := by
  induction msgs generalizing l with
  | nil => exact ⟨rfl, rfl⟩
  | cons msg msgs ih =>
    obtain ⟨hclient, hnetwork⟩ := ih (l.noteError msg)
    have hone : (l.noteError msg).client = l.client ∧ (l.noteError msg).network = l.network := by
      cases msg <;> exact ⟨rfl, rfl⟩
    exact ⟨hclient.trans hone.1, hnetwork.trans hone.2⟩

theorem InStep.pollServer (h : l.InStep held) : l.pollServer.1.InStep held := by
  unfold DaemonLink.pollServer
  cases hc : l.client with
  | none => exact h
  | some c =>
    cases hr : l.io.read with
    | ok msgs =>
      obtain ⟨hclient, hnetwork⟩ := noteErrors_connections msgs l.ask
      refine ⟨?_, ?_⟩
      · dsimp only
        rw [hnetwork]
        exact h.closed
      · dsimp only
        rw [hclient]
        exact h.client
    | error e =>
      refine ⟨?_, by simp [dropped, scheduleRetry]⟩
      simpa [dropped, scheduleRetry, ask, hc, or_imp, forall_and] using
        ⟨h.closed, (h.client c hc).1⟩

end DaemonLink

/-- The UI with the system destination active: the driver over the daemon link. -/
abbrev Ui := KeyboardDriver DaemonLink

/-- One call of the driver or of the link. -/
inductive UiOp where
  | call (c : DriverCall)
  | pollConnect
  | pollServer
  | ping

inductive TextModeOutcome where
  | handled | fallThrough | failed
  deriving DecidableEq, Repr

/-- What text mode does with a press: the actions it types with, and how it ends when none
of them fails. -/
structure TextPlan where
  typed : List (KeyAction × PhysicalKey × ℕ)
  outcome : TextModeOutcome

/-- An event of the main loop: a key action, with what text mode does with it when it is on;
a repeat tick; or the upkeep of the connection. -/
inductive UiEvent where
  | key (action : KeyAction) (key : PhysicalKey) (now : ℕ) (text : Option TextPlan)
  | tickRepeat (now : ℕ)
  | upkeep (pingDue : Bool)

namespace Ui

def perform (d : Ui) : UiOp → Ui × Except DriverError Unit
  | .call c => d.step c
  | .pollConnect => ({ d with sink := d.sink.pollConnect }, .ok ())
  | .pollServer => ({ d with sink := d.sink.pollServer.1 }, .ok ())
  | .ping => ({ d with sink := d.sink.ping.1 }, d.sink.ping.2.mapError .sink)

/-- Type with the driver, up to the first action that fails. -/
def typeText (d : Ui) : List (KeyAction × PhysicalKey × ℕ) → List UiOp × Except DriverError Unit
  | [] => ([], .ok ())
  | (action, key, now) :: rest =>
    match d.handleAction action key now with
    | (d, .ok ()) =>
      let r := typeText d rest
      (.call (.action action key now) :: r.1, r.2)
    | (_, .error e) => ([.call (.action action key now)], .error e)

/-- The keyboard path of a key action. Escape hides the keyboard and is not sent; the state
is released when the action fails or there is no connection after it. -/
def keyPath (d : Ui) (action : KeyAction) (key : PhysicalKey) (now : ℕ) : List UiOp :=
  if key = .escape ∧ action = .down then []
  else
    match d.handleAction action key now with
    | (d, .ok ()) =>
      if d.sink.isConnected then [.call (.action action key now)]
      else [.call (.action action key now), .call .emergencyRelease]
    | (_, .error _) => [.call (.action action key now), .call .emergencyRelease]

/-- The calls that a key action leads to, in order. Only presses are text. -/
def handleKey (d : Ui) (action : KeyAction) (key : PhysicalKey) (now : ℕ) (text : Option TextPlan) :
    List UiOp :=
  match action, text with
  | .down, some plan =>
    match d.typeText plan.typed, plan.outcome with
    | (ops, .ok ()), .fallThrough => ops ++ (run perform d ops).keyPath .down key now
    | (ops, _), _ => ops
  | _, _ => d.keyPath action key now

/-- The calls that an event leads to, in order. -/
def opsOf (d : Ui) : UiEvent → List UiOp
  | .key action key now text => d.handleKey action key now text
  | .tickRepeat now => [.call (.tickRepeat now)]
  | .upkeep pingDue => [.pollConnect, .pollServer] ++ if pingDue then [.ping] else []

def step (d : Ui) (ev : UiEvent) : Ui × List UiOp := (run perform d (d.opsOf ev), d.opsOf ev)

/-- Every connection so far has carried messages that the daemon accepts. -/
def Agrees (d : Ui) : Prop := ∀ c ∈ d.sink.network.closed ++ d.sink.client.toList, c.Accepted

/-- If the call establishes a connection, no key is depressed; a call of the driver also has
room for what it presses, and its release takes no tracked key with it. -/
def Clean (d : Ui) : UiOp → Prop
  | .call c => d.HasRoom c ∧ d.CascadeUntracked c ∧
      (d.sink.Connects → strokesOf (d.toKeyboardEngine.step c).2 ≠ [] →
        ∀ key, key ∉ d.state.depressed)
  | .pollConnect | .ping => d.sink.Connects → ∀ key, key ∉ d.state.depressed
  | .pollServer => True

/-- All the calls of the event are clean where they are made. -/
def CleanStep (d : Ui) (ev : UiEvent) : Prop := Steps perform Clean d (d.opsOf ev)

/-- The connections are sound and in step with the depressed keys. -/
structure Inv (d : Ui) : Prop where
  inStep : d.sink.InStep d.state.depressed.toSet
  tracked : d.TrackedInv

variable {d : Ui}

theorem Inv.agrees (h : d.Inv) : d.Agrees := by
  intro c hm
  rcases List.mem_append.mp hm with hm | hm
  · exact (h.inStep.closed c hm).accepted
  · exact (h.inStep.client c (Option.mem_toList.mp hm)).1.accepted

theorem toSet_eq_empty {s : KeySet} (h : ∀ key, key ∉ s) : s.toSet = ∅ :=
  Set.eq_empty_iff_forall_notMem.mpr h

theorem Inv.perform {op : UiOp} (h : d.Inv) (hc : d.Clean op) : (d.perform op).1.Inv := by
  cases op with
  | call c =>
    obtain ⟨hroom, huntracked, hconnects⟩ := hc
    refine ⟨?_, ?_⟩
    · have hdel := h.inStep.deliver (fun hd hn => toSet_eq_empty (hconnects hd hn))
        (h.tracked.legal_step hroom)
      rw [KeyboardEngine.leaves_step _ _ hroom] at hdel
      simpa [Ui.perform] using hdel
    · simpa [Ui.perform] using h.tracked.step huntracked
  | pollConnect => exact ⟨h.inStep.pollConnect fun hd => toSet_eq_empty (hc hd), h.tracked⟩
  | pollServer => exact ⟨h.inStep.pollServer, h.tracked⟩
  | ping => exact ⟨h.inStep.ping fun hd => toSet_eq_empty (hc hd), h.tracked⟩

theorem inv_new (settings : StateSettings) (repeatSettings : RepeatSettings) (layout : Layout)
    (answer : ℕ → LinkIo) (start : ℕ) :
    Inv (.new settings repeatSettings layout (.new answer start)) := by
  refine ⟨⟨?_, ?_⟩, ⟨?_, ?_⟩⟩ <;> simp [KeyboardDriver.new, KeyboardEngine.new, DaemonLink.new]

/-- In every run whose calls are all clean, every connection carries messages that the
daemon accepts. -/
theorem always_agrees (settings : StateSettings) (repeatSettings : RepeatSettings)
    (layout : Layout) (answer : ℕ → LinkIo) (start : ℕ) {events : List UiEvent}
    (h : Steps step CleanStep (.new settings repeatSettings layout (.new answer start)) events) :
    Always step Agrees (.new settings repeatSettings layout (.new answer start)) events := by
  refine always_of_steps Inv (inv_new _ _ _ _ _) (fun d hd => hd.agrees) ?_ h
  intro d ev hd hc
  exact run_of_steps Inv hd (fun d op => Inv.perform) hc

/-- A daemon that is always there; the connection is lost before the sixth thing that the
link does. -/
def lossAtSixth : Ui :=
  .new ⟨true, 400000000, 16⟩ ⟨true, 500000000, 30000000⟩ ⟨fun _ => none⟩
    (.new (fun n => ⟨1000 * n, 1000 * n, .connected, none,
      if n = 5 then .error "connection reset" else .ok []⟩) 0)

theorem connectAndPress_agrees :
    let events : List UiEvent := [.upkeep false, .key .down .a 0 none]
    Steps step CleanStep lossAtSixth events ∧ Always step Agrees lossAtSixth events := by
  have hempty : ∀ key, key ∉ lossAtSixth.state.depressed := fun key => KeySet.mem_new
  have hkey : (lossAtSixth.step (.upkeep false)).1.opsOf (.key .down .a 0 none) =
      [.call (.action .down .a 0)] := rfl
  have hsteps : Steps step CleanStep lossAtSixth [.upkeep false, .key .down .a 0 none] := by
    rw [steps_cons_iff, steps_cons_iff, CleanStep, CleanStep, hkey]
    refine ⟨?_, ?_, steps_nil _⟩
    · exact steps_cons_iff.mpr ⟨fun _ => hempty, steps_cons_iff.mpr ⟨trivial, steps_nil _⟩⟩
    · refine steps_cons_iff.mpr ⟨⟨KeyboardState.steps_hasRoom (by decide) _, ?_, fun _ _ => hempty⟩,
        steps_nil _⟩
      rintro s key ⟨⟩
  exact ⟨hsteps, always_agrees _ _ _ _ _ hsteps⟩

/-- A key is pressed, the upkeep notices the loss and reconnects, and then the key is
released on the new connection, which has not seen its press. -/
theorem lossBetween_not_agrees : ¬ Always step Agrees lossAtSixth
    [.upkeep false, .key .down .a 0 none, .upkeep false, .upkeep false, .key .up .a 6000 none] := by
  intro h
  have hsent := h _ List.prefix_rfl ⟨Client.greeting.sent ++ [.keyUp 30]⟩ (by decide)
  exact absurd hsent.wellFormed.1 (Set.notMem_empty _)

end Ui

end Ferrokey.App
