import Ferrokey.Daemon.Stream
import Ferrokey.Uinput.ByteDevice

/-! # The broker and the kernel

Any number of sessions share the device, and the kernel reads the bytes that the device writes. It
may take a part of a batch, or refuse it. The keys that it takes to be down are those on the
ledger, but for keys whose last press or release was lost on the way.
-/

namespace Ferrokey.Daemon

open Uinput Protocol Machine Framing Emit

section Interface

/-- Two keyboards do alike whatever the protocol core asks of them. -/
structure Alike {δ ε : Type} [KeyDevice δ] [KeyDevice ε] (R : δ → ε → Prop) : Prop where
  keyDown {d : δ} {e : ε} (h : R d e) (key : PhysicalKey) :
    (KeyDevice.keyDown d key).2 = (KeyDevice.keyDown e key).2 ∧
      R (KeyDevice.keyDown d key).1 (KeyDevice.keyDown e key).1
  keyUp {d : δ} {e : ε} (h : R d e) (key : PhysicalKey) :
    (KeyDevice.keyUp d key).2 = (KeyDevice.keyUp e key).2 ∧
      R (KeyDevice.keyUp d key).1 (KeyDevice.keyUp e key).1
  keyRepeat {d : δ} {e : ε} (h : R d e) (key : PhysicalKey) :
    (KeyDevice.keyRepeat d key).2 = (KeyDevice.keyRepeat e key).2 ∧
      R (KeyDevice.keyRepeat d key).1 (KeyDevice.keyRepeat e key).1
  releaseKeys {d : δ} {e : ε} (h : R d e) (codes : List UInt16) :
    (KeyDevice.releaseKeys d codes).2 = (KeyDevice.releaseKeys e codes).2 ∧
      R (KeyDevice.releaseKeys d codes).1 (KeyDevice.releaseKeys e codes).1
  isCapable {d : δ} {e : ε} (h : R d e) (code : UInt16) :
    KeyDevice.isCapable d code = KeyDevice.isCapable e code

/-- What becomes of a session and a keyboard is alike. -/
def SameResult {δ ε : Type} (R : δ → ε → Prop) (r : ClientSession × δ × Outcome)
    (r' : ClientSession × ε × Outcome) : Prop :=
  r.1 = r'.1 ∧ R r.2.1 r'.2.1 ∧ r.2.2 = r'.2.2

variable {δ ε : Type} [KeyDevice δ] [KeyDevice ε] {R : δ → ε → Prop} {d : δ} {e : ε}

theorem withKey_alike (hR : Alike R) (h : R d e) (s : ClientSession) (code : UInt16)
    {body : PhysicalKey → ClientSession × δ × Outcome}
    {body' : PhysicalKey → ClientSession × ε × Outcome}
    (hbody : ∀ key, SameResult R (body key) (body' key)) :
    SameResult R (withKey s d code body) (withKey s e code body') := by
  rw [withKey, withKey, hR.isCapable h]
  repeat' split
  all_goals first | exact ⟨rfl, h, rfl⟩ | exact hbody _

omit [KeyDevice δ] [KeyDevice ε] in
/-- A key is carried out alike, and the session goes on alike. -/
theorem carried_alike (p : δ × Except DeviceError Unit) (p' : ε × Except DeviceError Unit)
    (done failed : ClientSession) : p.2 = p'.2 → R p.1 p'.1 →
    SameResult R
      (match p with
        | (d', .ok ()) => (done, d', .keep)
        | (d', .error e) => (failed, d', deviceErrorOutcome e))
      (match p' with
        | (d', .ok ()) => (done, d', .keep)
        | (d', .error e) => (failed, d', deviceErrorOutcome e)) := by
  intro hresult hnext
  obtain ⟨d', r⟩ := p
  obtain ⟨e', r'⟩ := p'
  obtain rfl : r = r' := hresult
  cases r <;> exact ⟨rfl, hnext, rfl⟩

/-- What the core makes of a message does not tell keyboards apart that do alike. -/
theorem processMessage_alike (hR : Alike R) (h : R d e) (allowed : Bool) (s : ClientSession)
    (msg : Message) :
    SameResult R (processMessage allowed s d msg) (processMessage allowed s e msg) := by
  unfold processMessage
  split
  · exact ⟨rfl, h, rfl⟩
  cases msg with
  | keyDown code =>
    refine withKey_alike hR h s code fun key => ?_
    obtain ⟨hresult, hnext⟩ := hR.keyDown h key
    split
    · exact ⟨rfl, h, rfl⟩
    split
    · exact ⟨rfl, h, rfl⟩
    · exact carried_alike _ _ _ _ hresult hnext
  | keyUp code =>
    refine withKey_alike hR h s code fun key => ?_
    obtain ⟨hresult, hnext⟩ := hR.keyUp h key
    split
    · exact ⟨rfl, h, rfl⟩
    · exact carried_alike _ _ _ _ hresult hnext
  | keyRepeat code =>
    refine withKey_alike hR h s code fun key => ?_
    obtain ⟨hresult, hnext⟩ := hR.keyRepeat h key
    split
    · exact ⟨rfl, h, rfl⟩
    · exact carried_alike _ _ _ _ hresult hnext
  | releaseAll =>
    obtain ⟨hresult, hnext⟩ := hR.releaseKeys h s.drainHeld.1
    dsimp only
    split
    · exact ⟨rfl, h, rfl⟩
    · generalize KeyDevice.releaseKeys d s.drainHeld.1 = p at hresult hnext
      generalize KeyDevice.releaseKeys e s.drainHeld.1 = p' at hresult hnext
      obtain ⟨d', errors⟩ := p
      obtain ⟨e', errors'⟩ := p'
      obtain rfl : errors = errors' := hresult
      cases errors <;> exact ⟨rfl, hnext, rfl⟩
  | _ =>
    dsimp only
    repeat' split
    all_goals exact ⟨rfl, h, rfl⟩

end Interface

namespace ByteDevice

open Uinput (ByteDevice)

/-- Give an operation's result the daemon's error kind for a key. -/
def lift (key : PhysicalKey) (r : ByteDevice × Except Uinput.SinkError Unit) :
    ByteDevice × Except DeviceError Unit :=
  (r.1, r.2.mapError (mapSink (toLinuxCode key)))

instance : KeyDevice ByteDevice where
  keyDown d key := lift key (d.keyDown key)
  keyUp d key := lift key (d.keyUp key)
  keyRepeat d key := lift key (d.keyRepeat key)
  releaseKeys d codes :=
    let r := d.releaseKeys codes
    (r.1, r.2.map (mapSink (codes.head?.getD 0)))
  releaseAll d :=
    let r := d.releaseAll
    (r.1, r.2.map (fun e => .io e.text))
  isCapable _ code := Uinput.isCapable code
  isHeld d code := d.isHeld code
  heldCount d := d.heldCount

end ByteDevice

/-- The two real devices do alike. -/
theorem mirror_alike : Alike fun (b : Uinput.ByteDevice) (d : RealDevice) => Mirror b d.dev where
  keyDown h key := (h.keyDown key).imp_left (congrArg (Except.mapError (mapSink (toLinuxCode key))))
  keyUp h key := (h.keyUp key).imp_left (congrArg (Except.mapError (mapSink (toLinuxCode key))))
  keyRepeat h key := (h.keyRepeat key).imp_left (congrArg (Except.mapError (mapSink (toLinuxCode key))))
  releaseKeys h codes :=
    (h.releaseKeys codes).imp_left (congrArg (List.map (mapSink (codes.head?.getD 0))))
  isCapable _ _ := rfl

/-- The shared device, down to the bytes of its descriptor, and the live sessions. -/
structure ByteBroker where
  device : Uinput.ByteDevice
  sessions : List ClientSession

namespace ByteBroker

def new (calls : ℕ → List WriteAnswer) (maxHeldKeys : ℕ) : ByteBroker :=
  ⟨.adopt calls maxHeldKeys, []⟩

/-- One step: a client is accepted, one of its messages is processed, or it is removed
and its keys are released. -/
def step (b : ByteBroker) : Event → ByteBroker × Option Outcome
  | .connect maxHeldKeys => ({ b with sessions := b.sessions ++ [.new maxHeldKeys] }, none)
  | .message i allowed msg =>
    match b.sessions[i]? with
    | none => (b, none)
    | some s =>
      let r := processMessage allowed s b.device msg
      (⟨r.2.1, b.sessions.set i r.1⟩, some r.2.2)
  | .disconnect i =>
    match b.sessions[i]? with
    | none => (b, none)
    | some s => (⟨(disconnect s b.device).1, b.sessions.eraseIdx i⟩, none)

/-- The brokers have the same sessions and devices that do alike. -/
def Follows (b : Broker) (h : ByteBroker) : Prop :=
  h.sessions = b.sessions ∧ Mirror h.device b.device.dev

theorem Follows.step {b : Broker} {h : ByteBroker} (hf : Follows b h) (e : Event) :
    (h.step e).2 = (b.step e).2 ∧ Follows (b.step e).1 (h.step e).1 := by
  obtain ⟨hsessions, hmirror⟩ := hf
  cases e with
  | connect n => exact ⟨rfl, congrArg (· ++ _) hsessions, hmirror⟩
  | message i allowed msg =>
    rw [ByteBroker.step, Broker.step, hsessions]
    cases b.sessions[i]? with
    | none => exact ⟨rfl, hsessions, hmirror⟩
    | some s =>
      obtain ⟨hs, hd, hout⟩ := processMessage_alike mirror_alike hmirror allowed s msg
      exact ⟨congrArg some hout, congrArg (b.sessions.set i) hs, hd⟩
  | disconnect i =>
    rw [ByteBroker.step, Broker.step, hsessions]
    cases b.sessions[i]? with
    | none => exact ⟨rfl, hsessions, hmirror⟩
    | some s => exact ⟨rfl, rfl, (mirror_alike.releaseKeys hmirror _).2⟩

/-- The keys that the kernel takes to be down after the bytes that it has taken. -/
def keys (h : ByteBroker) : Set UInt16 := keysDown (inputFramer.parse h.device.file.taken).1

/-- The batches that the kernel was offered, what it has read of them, and what it makes of it. -/
structure Seen (entries : List Entry) (h : ByteBroker) (b : Broker) : Prop where
  recorded : h.device.file.record = entries.map Entry.batch
  read : inputFramer.parse h.device.file.taken = (entries.flatMap Entry.raws, .ok [])
  proper : ∀ en ∈ entries, Proper en.event
  log : b.log = (entries.filter fun en => 2 ≤ en.images).map Entry.event
  keys : ∀ code, Settled code entries → (code ∈ h.keys ↔ code.toUInt32 ∈ b.ledger)

theorem Follows.seen {b : Broker} {h : ByteBroker} (hf : Follows b h) :
    ∃ entries, Seen entries h b ∧
      ∀ en ∈ entries, 2 ≤ en.images ∨ ∃ k, b.device.dev.fd.answer k ≠ none := by
  obtain ⟨-, entries, hm⟩ := hf
  have hread : inputFramer.parse h.device.file.taken = (entries.flatMap Entry.raws, .ok []) := by
    rw [hm.taken, parse_entries hm.proper]
  refine ⟨entries, ⟨hm.recorded, hread, hm.proper, hm.log, fun code hsettled => ?_⟩, hm.cut⟩
  rw [ByteBroker.keys, hread, keysDown_raws, mem_leftDown_arrived hsettled]
  exact hm.down code

/-- Where every write succeeds, exactly the keys of the sessions are down. -/
theorem Follows.mem_keys {b : Broker} {h : ByteBroker} (hf : Follows b h) (hsound : b.Sound)
    (code : UInt16) : code ∈ h.keys ↔ ∃ s ∈ h.sessions, code ∈ s.held := by
  obtain ⟨entries, hseen, hcut⟩ := hf.seen
  have harrived : ∀ en ∈ entries, en.Arrived := by
    intro en hen
    rcases hcut en hen with hfull | ⟨k, hlost⟩
    · exact Nat.zero_lt_of_lt hfull
    · exact absurd (hsound.coherent.answers k) hlost
  obtain ⟨hcovered, hrecorded⟩ := hsound.owned.agrees
  rw [hseen.keys code (.of_arrived harrived), hf.1]
  constructor
  · intro hc
    obtain ⟨s, hs, hheld⟩ := hcovered _ hc
    exact ⟨s, hs, toUInt32_mem_heldCodes.mp hheld⟩
  · rintro ⟨s, hs, hheld⟩
    exact hrecorded s hs _ (toUInt32_mem_heldCodes.mpr hheld)

/-- Whatever parts of the writes the kernel takes and whichever it refuses, the broker answers its
clients as it does over a device of events. The kernel reads whole key events and reports, and it
takes each key to be down that is on the ledger, unless the last press or release of the key was
lost. While it takes all, these are the keys that the sessions hold. -/
theorem kernel_of_run {calls : ℕ → List WriteAnswer} (hwhole : ∀ k, Whole (calls k))
    (maxHeldKeys : ℕ) (events : List Event) :
    let b := run Broker.step (.new (fun k => refusal (calls k)) maxHeldKeys) events
    let h := run ByteBroker.step (.new calls maxHeldKeys) events
    outputs ByteBroker.step (.new calls maxHeldKeys) events =
        outputs Broker.step (.new (fun k => refusal (calls k)) maxHeldKeys) events ∧
      h.sessions = b.sessions ∧ (∃ entries, Seen entries h b) ∧
      ((∀ k, refusal (calls k) = none) →
        ∀ code, code ∈ h.keys ↔ ∃ s ∈ h.sessions, code ∈ s.held) := by
  have hstart : Follows (.new (fun k => refusal (calls k)) maxHeldKeys) (.new calls maxHeldKeys) :=
    ⟨rfl, [], .adopt hwhole maxHeldKeys⟩
  have hrun := run_related (g := id) Follows (fun b h e hf => hf.step e) hstart events
  rw [List.map_id] at hrun
  obtain ⟨entries, hseen, -⟩ := hrun.2.seen
  refine ⟨hrun.1, hrun.2.1, ⟨entries, hseen⟩, fun hall => hrun.2.mem_keys ?_⟩
  rw [show (fun k => refusal (calls k)) = fun _ => none from funext hall]
  exact run_invariant Broker.Sound (Broker.new_sound maxHeldKeys) Broker.step_sound events

/-- The press is taken in parts, and the report after the release is refused. -/
def cutRelease : ℕ → List WriteAnswer
  | 0 => [.interrupted, .took 24, .took 24]
  | 1 => [.took 24, .failed "No such device (os error 19)"]
  | _ => []

/-- A client completes the handshake, presses `A` and releases it. -/
def pressAndRelease : List Event :=
  [.connect 16, .message 0 true (.hello 2 "ferrokey"), .message 0 true .openSession,
    .message 0 true (.keyDown 30), .message 0 true (.keyUp 30)]

theorem kernel_of_run_cutRelease :
    let b := run Broker.step (.new (fun k => refusal (cutRelease k)) 16) pressAndRelease
    let h := run ByteBroker.step (.new cutRelease 16) pressAndRelease
    (∀ k, Whole (cutRelease k)) ∧ (∃ entries, Seen entries h b) ∧
      h.device.file.record.map (fun batch => (batch.events, batch.taken.length)) =
        [([⟨30, 1⟩], 2 * imageSize), ([⟨30, 0⟩], imageSize)] := by
  have hwhole : ∀ k, Whole (cutRelease k) := by
    intro k n hn
    have hsize : n = imageSize := by
      match k with
      | 0 => simpa [cutRelease, imageSize] using hn
      | 1 => simpa [cutRelease, imageSize] using hn
      | k + 2 => simp [cutRelease] at hn
    exact hsize ▸ dvd_refl n
  exact ⟨hwhole, (kernel_of_run hwhole 16 pressAndRelease).2.2.1, by decide⟩

end ByteBroker

end Ferrokey.Daemon
