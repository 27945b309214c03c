import Ferrokey.Daemon.Session
import Ferrokey.Machine.Partition
import Ferrokey.Machine.Runs

/-! # Key ownership in the broker

Any number of client sessions share one device. Each session records the keys
it has pressed and the device ledger records them all; the two records are kept
by different code and must agree after every step of every interleaving.
-/

namespace Ferrokey.Daemon

open Uinput Protocol Machine

/-- The shared device and the live sessions. -/
structure Broker where
  device : RealDevice
  sessions : List ClientSession

inductive Event where
  | connect (maxHeldKeys : ℕ)
  | message (i : ℕ) (allowed : Bool) (msg : Message)
  | disconnect (i : ℕ)

namespace Broker

/-- A broker without clients, over a device whose writes the kernel answers as given. -/
def new (answer : ℕ → Option String) (maxHeldKeys : ℕ) : Broker :=
  ⟨⟨.new answer maxHeldKeys⟩, []⟩

/-- One step: a client is accepted, one of its messages is processed, or it is removed
and its keys are released. -/
def step (b : Broker) : Event → Broker × Option Outcome
  | .connect maxHeldKeys => ({ b with sessions := b.sessions ++ [.new maxHeldKeys] }, none)
  | .message i allowed msg =>
    match b.sessions[i]? with
    | none => (b, none)
    | some s =>
      let r := processMessage allowed s b.device msg
      (⟨r.2.1, b.sessions.set i r.1⟩, some r.2.2)
  | .disconnect i =>
    match b.sessions[i]? with
    | none => (b, none)
    | some s => (⟨(disconnect s b.device).1, b.sessions.eraseIdx i⟩, none)

def ledger (b : Broker) : Set UInt32 := {c | c ∈ b.device.dev.ledger.held}

def log (b : Broker) : List InputEvent := b.device.dev.fd.log

end Broker

/-- A session's keys, as the ledger records them. -/
def heldCodes (s : ClientSession) : Set UInt32 := {c | ∃ code ∈ s.held, code.toUInt32 = c}

theorem toUInt32_mem_heldCodes {s : ClientSession} {code : UInt16} :
    code.toUInt32 ∈ heldCodes s ↔ code ∈ s.held := by
  constructor
  · rintro ⟨code', h, he⟩
    exact UInt16.toUInt32_inj.mp he ▸ h
  · exact fun h => ⟨code, h, rfl⟩

@[simp] theorem heldCodes_new (n : ℕ) : heldCodes (.new n) = ∅ := by
  ext c; simp [heldCodes, ClientSession.new]

theorem mem_heldCodes_insert {s : ClientSession} {code : UInt16} {c : UInt32} :
    c ∈ heldCodes { s with held := s.held.insert code } ↔ c = code.toUInt32 ∨ c ∈ heldCodes s := by
  constructor
  · rintro ⟨code', h, rfl⟩
    rcases BTreeSet.mem_insert.mp h with rfl | h
    · exact Or.inl rfl
    · exact Or.inr ⟨code', h, rfl⟩
  · rintro (rfl | ⟨code', h, rfl⟩)
    · exact ⟨code, BTreeSet.mem_insert.mpr (Or.inl rfl), rfl⟩
    · exact ⟨code', BTreeSet.mem_insert.mpr (Or.inr h), rfl⟩

theorem mem_heldCodes_remove {s : ClientSession} {code : UInt16} {c : UInt32} :
    c ∈ heldCodes { s with held := s.held.remove code } ↔ c ≠ code.toUInt32 ∧ c ∈ heldCodes s := by
  constructor
  · rintro ⟨code', h, rfl⟩
    obtain ⟨hne, h⟩ := BTreeSet.mem_remove.mp h
    exact ⟨fun he => hne (UInt16.toUInt32_inj.mp he), code', h, rfl⟩
  · rintro ⟨hne, code', h, rfl⟩
    exact ⟨code', BTreeSet.mem_remove.mpr ⟨fun he => hne (he ▸ rfl), h⟩, rfl⟩

theorem heldCodes_congr {s s' : ClientSession} (h : s'.held = s.held) :
    heldCodes s' = heldCodes s := by
  rw [heldCodes, h]; rfl

/-- A press or a release that has passed every check meets a write that fails. The
ledger has moved by then, and the session will not. -/
def WriteLost (b : Broker) : Event → Prop
  | .message i allowed msg =>
    allowed = true ∧ (∃ code, msg = .keyDown code ∨ msg = .keyUp code) ∧
      (∃ s, b.sessions[i]? = some s ∧ Reaches s b.device.dev msg) ∧
      b.device.dev.fd.answer b.device.dev.fd.attempts ≠ none
  | _ => False

section Ownership

variable {s s' : ClientSession} {d d' : UinputDevice} {pre post : List ClientSession}
  {allowed : Bool} {msg : Message}

/-- The sessions own the ledger's codes: each is held by exactly one of them. -/
def Owned (d : UinputDevice) (sessions : List ClientSession) : Prop :=
  Partition {c | c ∈ d.ledger.held} (sessions.map heldCodes)

theorem Owned.replace (p : Owned d (pre ++ s :: post))
    (hg : ∀ c ∈ heldCodes s', c ∈ heldCodes s ∨ c ∉ d.ledger.held)
    (hd : ∀ c, c ∈ d'.ledger.held ↔ c ∈ d.ledger.held ∧ c ∉ heldCodes s ∨ c ∈ heldCodes s') :
    Owned d' (pre ++ s' :: post) := by
  simp only [Owned, List.map_append, List.map_cons] at p ⊢
  exact Partition.replace p hg hd

theorem Owned.subset (p : Owned d (pre ++ s :: post)) {c : UInt32} (hc : c ∈ heldCodes s) :
    c ∈ d.ledger.held :=
  Partition.mem_of_owner p (List.mem_map_of_mem (List.mem_append_right _ List.mem_cons_self)) hc

/-- Releasing a session's keys leaves the ledger with what the others hold. -/
theorem mem_releaseKeys_held (d : UinputDevice) (s : ClientSession) (c : UInt32) :
    c ∈ (d.releaseKeys s.held.elems).1.ledger.held ↔ c ∈ d.ledger.held ∧ c ∉ heldCodes s := by
  rw [UinputDevice.mem_releaseKeys_ledger]
  refine and_congr_right fun _ => ?_
  simp only [heldCodes, Set.mem_ofPred_eq, not_exists, not_and, BTreeSet.mem_def, ne_eq]

/-- Every effect of a message keeps the ownership, unless a press or release was lost. -/
theorem Effect.owned (h : Effect allowed s d msg s' d') (p : Owned d (pre ++ s :: post))
    (hl : (∃ code, msg = .keyDown code ∨ msg = .keyUp code) → allowed = true →
      Reaches s d msg → d.fd.answer d.fd.attempts = none) :
    Owned d' (pre ++ s' :: post) := by
  cases h with
  | quiet _ hs =>
    rw [Owned, List.map_append, List.map_cons, heldCodes_congr hs]
    simpa [Owned] using p
  | @press code ha hr hw =>
    refine p.replace (fun c hc => ?_) (fun c => ?_)
    · rcases mem_heldCodes_insert.mp hc with rfl | hc
      · exact Or.inr hr.2.2.2.2.1
      · exact Or.inl hc
    · have hsub : c ∈ heldCodes s → c ∈ d.ledger.held := p.subset
      rw [HeldLedger.pressed, BTreeSet.mem_insert, mem_heldCodes_insert]
      tauto
  | pressLost ha hr hw => simp [hl ⟨_, Or.inl rfl⟩ ha hr] at hw
  | @release code ha hr hw =>
    refine p.replace (fun c hc => Or.inl (mem_heldCodes_remove.mp hc).2) (fun c => ?_)
    have hsub : c ∈ heldCodes s → c ∈ d.ledger.held := p.subset
    have hcode : c = code.toUInt32 → c ∈ heldCodes s := by
      rintro rfl
      exact toUInt32_mem_heldCodes.mpr hr.2.2.1
    rw [HeldLedger.released, BTreeSet.mem_remove, mem_heldCodes_remove]
    tauto
  | releaseLost ha hr hw => simp [hl ⟨_, Or.inr rfl⟩ ha hr] at hw
  | again => exact p
  | againLost => exact p
  | releaseAll =>
    refine p.replace (by simp [heldCodes]) (fun c => ?_)
    rw [mem_releaseKeys_held]
    simp [heldCodes]

theorem Owned.leave (p : Owned d (pre ++ s :: post)) :
    Owned (d.releaseKeys s.held.elems).1 (pre ++ post) := by
  simp only [Owned, List.map_append, List.map_cons] at p ⊢
  exact Partition.leave p (mem_releaseKeys_held d s)

end Ownership

namespace Broker

theorem step_message {b : Broker} {i : ℕ} {s : ClientSession} (hi : b.sessions[i]? = some s)
    (allowed : Bool) (msg : Message) :
    ∃ s' d', Effect allowed s b.device.dev msg s' d' ∧
      (b.step (.message i allowed msg)).1 = ⟨⟨d'⟩, b.sessions.set i s'⟩ := by
  refine ⟨_, _, processMessage_effect allowed s b.device.dev msg, ?_⟩
  simp only [step, hi]

theorem step_disconnect {b : Broker} {i : ℕ} {s : ClientSession} (hi : b.sessions[i]? = some s) :
    (b.step (.disconnect i)).1 =
      ⟨⟨(b.device.dev.releaseKeys s.held.elems).1⟩, b.sessions.eraseIdx i⟩ := by
  simp only [step, hi]
  rfl

theorem step_absent {b : Broker} {i : ℕ} (hi : b.sessions[i]? = none) (allowed : Bool)
    (msg : Message) :
    (b.step (.message i allowed msg)).1 = b ∧ (b.step (.disconnect i)).1 = b := by
  simp [step, hi]

/-- The ownership survives every step in which no press or release is lost. -/
theorem step_owned {b : Broker} {e : Event} (p : Owned b.device.dev b.sessions)
    (hl : ¬ WriteLost b e) : Owned (b.step e).1.device.dev (b.step e).1.sessions := by
  cases e with
  | connect n =>
    simp only [step, Owned, List.map_append, List.map_cons, List.map_nil, heldCodes_new]
    exact Partition.join p
  | message i allowed msg =>
    cases hi : b.sessions[i]? with
    | none => rw [(step_absent hi allowed msg).1]; exact p
    | some s =>
      obtain ⟨s', d', he, hs⟩ := step_message hi allowed msg
      obtain ⟨pre, post, hsplit, hset, -⟩ := getElem?_split hi
      rw [hs, hset]
      rw [hsplit] at p
      refine he.owned p fun hm ha hr => ?_
      by_contra hw
      exact hl ⟨ha, hm, ⟨s, hi, hr⟩, hw⟩
  | disconnect i =>
    cases hi : b.sessions[i]? with
    | none => rw [(step_absent hi false .ok).2]; exact p
    | some s =>
      obtain ⟨pre, post, hsplit, -, herase⟩ := getElem?_split hi
      rw [step_disconnect hi, herase]
      rw [hsplit] at p
      exact p.leave

theorem new_owned (answer : ℕ → Option String) (maxHeldKeys : ℕ) :
    Owned (new answer maxHeldKeys).device.dev (new answer maxHeldKeys).sessions := by
  have he : {c | c ∈ (HeldLedger.new maxHeldKeys).held} = (∅ : Set UInt32) := by
    ext c; simp [HeldLedger.new]
  simpa [Owned, new, UinputDevice.new, he] using Partition.empty

end Broker

/-- The two records agree: what the ledger has is held by a live session, and what a
session holds is on the ledger. -/
def Agrees (b : Broker) : Prop :=
  (∀ c ∈ b.ledger, ∃ s ∈ b.sessions, c ∈ heldCodes s) ∧
    ∀ s ∈ b.sessions, ∀ c ∈ heldCodes s, c ∈ b.ledger

theorem Owned.agrees {b : Broker} (p : Owned b.device.dev b.sessions) : Agrees b := by
  constructor
  · intro c hc
    obtain ⟨h, hm, hch⟩ := (Partition.mem_iff p c).mp hc
    obtain ⟨s, hs, rfl⟩ := List.mem_map.mp hm
    exact ⟨s, hs, hch⟩
  · intro s hs c hc
    exact (Partition.mem_iff p c).mpr ⟨_, List.mem_map_of_mem hs, hc⟩

/-- A lost press leaves a code on the ledger that no session holds; a lost release
leaves a session with a code the ledger has forgotten. -/
theorem WriteLost.not_agrees {b : Broker} {e : Event} (p : Owned b.device.dev b.sessions)
    (h : WriteLost b e) : ¬ Agrees (b.step e).1 := by
  cases e with
  | connect n => exact h.elim
  | disconnect i => exact h.elim
  | message i allowed msg =>
    obtain ⟨ha, hm, ⟨s, hi, hr⟩, hw⟩ := h
    obtain ⟨s', d', he, hs⟩ := Broker.step_message hi allowed msg
    have hmem : s ∈ b.sessions := List.mem_of_getElem? hi
    have hset : b.sessions.set i s = b.sessions := by
      obtain ⟨pre, post, hsplit, hset, -⟩ := getElem?_split hi
      rw [hset, ← hsplit]
    rintro ⟨hcov, hrec⟩
    rw [hs] at hcov hrec
    cases he with
    | quiet hn _ => exact hn ⟨ha, hr⟩
    | press _ _ hok => exact hw hok
    | release _ _ hok => exact hw hok
    | again => simp at hm
    | againLost => simp at hm
    | releaseAll => simp at hm
    | @pressLost code e _ _ _ =>
      have hc : code.toUInt32 ∈ (b.device.dev.ledger.pressed code.toUInt32).held :=
        BTreeSet.mem_insert.mpr (Or.inl rfl)
      obtain ⟨t, ht, hct⟩ := hcov code.toUInt32 hc
      rw [hset] at ht
      exact hr.2.2.2.2.1 (p.agrees.2 t ht _ hct)
    | @releaseLost code e _ _ _ =>
      have hc := hrec s (by rw [hset]; exact hmem) _ (toUInt32_mem_heldCodes.mpr hr.2.2.1)
      exact (BTreeSet.mem_remove.mp hc).1 rfl

/-- The records agree throughout a run exactly when no press and no release of the run
that passed its checks met a failing write. -/
theorem always_agrees_iff (answer : ℕ → Option String) (maxHeldKeys : ℕ) (events : List Event) :
    Always Broker.step Agrees (.new answer maxHeldKeys) events ↔
      Steps Broker.step (fun b e => ¬ WriteLost b e) (.new answer maxHeldKeys) events := by
  refine always_iff_steps (fun b => Owned b.device.dev b.sessions)
    (Broker.new_owned answer maxHeldKeys) ?_ ?_ ?_ events
  · exact fun b p => Owned.agrees p
  · exact fun b e p hl => Broker.step_owned p hl
  · exact fun b e p hl => WriteLost.not_agrees p (not_not.mp hl)

/-- One client completes the handshake and presses `A` while the device is gone. -/
def lostPress : List Event :=
  [.connect 16, .message 0 true (.hello 2 "ferrokey"), .message 0 true .openSession,
    .message 0 true (.keyDown 30)]

/-- The lost press strands a key on the ledger that no client can release. -/
theorem lostPress_strands :
    ¬ Always Broker.step Agrees
      (.new (fun n => if n = 0 then some "No such device (os error 19)" else none) 16)
      lostPress := by
  intro h
  obtain ⟨s, hs, code, hm, -⟩ := (h lostPress List.prefix_rfl).1 30 (by
    change (30 : UInt32) ∈ BTreeSet.elems _
    decide)
  have hnone : ∀ t ∈ (run Broker.step
      (.new (fun n => if n = 0 then some "No such device (os error 19)" else none) 16)
      lostPress).sessions, t.held.elems = [] := by decide
  rw [BTreeSet.mem_def, hnone s hs] at hm
  exact List.not_mem_nil hm

end Ferrokey.Daemon
