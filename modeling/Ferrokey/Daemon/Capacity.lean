import Ferrokey.Daemon.Lifecycle
import Ferrokey.Protocol.Indexed
import Mathlib.Algebra.Order.BigOperators.Group.List
import Mathlib.Algebra.Ring.Nat
import Mathlib.Algebra.Module.NatInt
import Mathlib.Algebra.Order.Ring.Nat

/-! # What the clients can make the broker keep

A client may send anything and read nothing. The bytes it leaves in its decoder and in its
reply queue and the keys it holds are bounded, and so are those of all clients together.
-/

namespace Ferrokey.Daemon

open Uinput Protocol Machine

/-- The most bytes a client can leave behind: a full reply queue and an incomplete frame. -/
def maxSlotBytes : ℕ := maxPendingOut + (headerLen + maxFrameLen)

/-- The bytes that are kept for a client. -/
def SessionSlot.bytes (slot : SessionSlot) : ℕ := slot.out.length + slot.decoder.buffered

/-- A client keeps to its bounds. -/
structure SessionSlot.Small (maxHeldKeys : ℕ) (slot : SessionSlot) : Prop where
  out : slot.out.length ≤ maxPendingOut
  buffered : slot.decoder.buffered < headerLen + maxFrameLen
  limit : slot.session.maxHeldKeys = maxHeldKeys
  held : slot.session.held.len ≤ maxHeldKeys

section

variable {s : ClientSession}

theorem withKey_maxHeldKeys {d : RealDevice} {code : UInt16}
    {body : PhysicalKey → ClientSession × RealDevice × Outcome}
    (h : ∀ key, (body key).1.maxHeldKeys = s.maxHeldKeys) :
    (withKey s d code body).1.maxHeldKeys = s.maxHeldKeys := by
  unfold withKey
  split
  · rfl
  split
  · rfl
  split
  · rfl
  · exact h _

/-- No message moves the limit of its session. -/
theorem processMessage_maxHeldKeys (d : RealDevice) (allowed : Bool) (msg : Message) :
    (processMessage allowed s d msg).1.maxHeldKeys = s.maxHeldKeys := by
  unfold processMessage
  split
  · rfl
  cases msg with
  | keyDown code | keyUp code | keyRepeat code =>
    refine withKey_maxHeldKeys fun key => ?_
    repeat' split
    all_goals rfl
  | releaseAll =>
    dsimp only
    split
    · rfl
    · simp only [KeyDevice.releaseKeys, RealDevice.releaseKeys]
      split <;> rfl
  | hello version name | openSession =>
    dsimp only
    repeat' split
    all_goals rfl
  | ping nonce | pong nonce | ok | error code text => rfl

/-- A session that holds no more keys than it may holds no more after a message. -/
theorem processMessage_held (h : s.held.len ≤ s.maxHeldKeys) (d : RealDevice) (allowed : Bool)
    (msg : Message) : (processMessage allowed s d msg).1.held.len ≤ s.maxHeldKeys := by
  have he := processMessage_effect allowed s d.dev msg
  change (processMessage allowed s (⟨d.dev⟩ : RealDevice) msg).1.held.len ≤ s.maxHeldKeys
  generalize (processMessage allowed s (⟨d.dev⟩ : RealDevice) msg).1 = s',
    (processMessage allowed s (⟨d.dev⟩ : RealDevice) msg).2.1.dev = d' at he ⊢
  cases he with
  | quiet _ hs => exact (congrArg BTreeSet.len hs).trans_le h
  | press _ hr _ => exact (BTreeSet.len_insert hr.2.2.1).trans_le hr.2.2.2.1
  | release => exact (BTreeSet.len_remove_le _ _).trans h
  | releaseAll => exact Nat.zero_le _
  | pressLost | releaseLost | again | againLost => exact h

end

section

variable {n : ℕ} {slot : SessionSlot}

theorem SessionSlot.Small.queueReply (h : slot.Small n) (msg : Message) :
    (slot.queueReply msg).1.Small n := by
  rcases slot.queueReply_cases msg with ⟨frame, -, hroom, hqueue⟩ | ⟨e, hqueue⟩
  · rw [hqueue]
    exact { h with out := (List.length_append ..).trans_le hroom }
  · rw [hqueue]
    exact h

theorem SessionSlot.Small.processOne (h : slot.Small n) (d : RealDevice) (allowed : Bool)
    (msg : Message) : (slot.processOne d allowed msg).1.Small n := by
  have hlimit := processMessage_maxHeldKeys (s := slot.session) d allowed msg
  have hheld := processMessage_held (h.held.trans_eq h.limit.symm) d allowed msg
  rw [SessionSlot.processOne]
  have hsession : SessionSlot.Small n
      { slot with session := (processMessage allowed slot.session d msg).1 } :=
    ⟨h.out, h.buffered, hlimit.trans h.limit, hheld.trans_eq h.limit⟩
  cases (processMessage allowed slot.session d msg).2.2 with
  | keep | close => exact hsession
  | reply reply | replyAndClose reply =>
    have hq := hsession.queueReply reply
    dsimp only
    generalize SessionSlot.queueReply _ reply = q at hq ⊢
    obtain ⟨slot', result⟩ := q
    cases result
    · exact hq
    · exact { hq with }

theorem SessionSlot.Small.processMessages (h : slot.Small n) (d : RealDevice)
    (allowed : ℕ → Bool) (msgs : List Message) :
    (slot.processMessages d allowed msgs).1.Small n := by
  induction msgs generalizing slot d allowed with
  | nil => exact h
  | cons msg msgs ih =>
    have hone := h.processOne d (allowed 0) msg
    rw [SessionSlot.processMessages_cons]
    generalize slot.processOne d (allowed 0) msg = one at hone ⊢
    obtain ⟨slot', d', result⟩ := one
    cases result with
    | none => exact ih hone d' _
    | some result => exact hone

/-- Reading keeps less than one frame, whatever is read. -/
theorem SessionSlot.Small.service (h : slot.Small n) (d : RealDevice) (io : ClientIo) :
    (slot.service d io).1.Small n := by
  unfold SessionSlot.service SessionSlot.serviceClient
  split
  · exact h
  split
  · exact h
  split
  · exact h
  · exact h
  · exact h
  next data hne _ =>
    have hpush := Decoder.push_small slot.decoder data
    split
    next decoder e hd =>
      rw [hd] at hpush
      exact { h with buffered := hpush }
    next decoder msgs hd =>
      rw [hd] at hpush
      have hread : SessionSlot.Small n { slot with decoder := decoder } :=
        { h with buffered := hpush }
      exact hread.processMessages d io.allowed msgs

theorem SessionSlot.Small.flush (h : slot.Small n) (io : ClientIo) : (slot.flush io).1.Small n := by
  obtain ⟨m, hf⟩ := slot.flushOut_fst io.writes
  have hsmall : (slot.flushOut io.writes).1.Small n := by
    rw [hf]
    exact { h with out := (List.length_drop ..).trans_le ((Nat.sub_le _ _).trans h.out) }
  unfold SessionSlot.flush
  split
  · exact h
  split
  · exact h
  split <;> next hflush =>
    rw [hflush] at hsmall
    first
    | exact hsmall
    | (split <;> exact { hsmall with })

end

/-- What happens to one client keeps every client within its bounds. -/
theorem small_inductive (n : ℕ) :
    Runtime.Inductive fun rt => rt.maxHeldKeys = n ∧ ∀ slot ∈ rt.sessions, slot.Small n := by
  have hset : ∀ {rt : Runtime} {i : ℕ} {slot : SessionSlot}, slot.Small n →
      (∀ slot ∈ rt.sessions, slot.Small n) → ∀ slot' ∈ rt.sessions.set i slot, slot'.Small n := by
    intro rt i slot hslot h slot' hm
    rcases List.mem_or_eq_of_mem_set hm with hm | rfl
    · exact h slot' hm
    · exact hslot
  constructor
  · rintro rt fd ⟨rfl, h⟩ -
    refine ⟨rfl, fun slot hm => ?_⟩
    rcases List.mem_append.mp hm with hm | hm
    · exact h slot hm
    · obtain rfl := List.mem_singleton.mp hm
      exact ⟨Nat.zero_le _, Nat.lt_of_lt_of_le (Nat.succ_pos _) (Nat.le_add_right _ _), rfl,
        Nat.zero_le _⟩
  · rintro rt i slot io ⟨hn, h⟩ hs
    exact ⟨hn, hset ((h slot (List.mem_of_getElem? hs)).service rt.device io) h⟩
  · rintro rt i slot io ⟨hn, h⟩ hs
    exact ⟨hn, hset ((h slot (List.mem_of_getElem? hs)).flush io) h⟩
  · rintro rt rt' i ⟨hn, h⟩ hr
    unfold Runtime.remove at hr
    split at hr
    · cases hr
    cases hr
    exact ⟨hn, fun slot hm => h slot (List.mem_of_mem_eraseIdx hm)⟩

/-- Whatever the clients send, whatever they read and whatever the device answers, the serve loop
keeps a bounded number of bytes and held keys. -/
theorem capacity_of_serveLoop {answer : ℕ → Option String} {maxConnections maxHeldKeys : ℕ}
    {turns : List Turn} {rt : Runtime}
    (h : (Runtime.start answer maxConnections maxHeldKeys).serveLoop turns = some rt) :
    (∀ slot ∈ rt.sessions, slot.Small maxHeldKeys) ∧
      (rt.sessions.map SessionSlot.bytes).sum ≤ maxConnections * maxSlotBytes ∧
      rt.heldKeys.length ≤ maxConnections * maxHeldKeys := by
  have hsmall := ((small_inductive maxHeldKeys).serveLoop ⟨rfl, by simp [Runtime.start]⟩ h).2
  have hlen := ((bounded_inductive maxConnections).serveLoop ⟨rfl, Nat.zero_le _⟩ h).2
  refine ⟨hsmall, ?_, ?_⟩
  · have hbytes : ∀ b ∈ rt.sessions.map SessionSlot.bytes, b ≤ maxSlotBytes := by
      intro b hb
      obtain ⟨slot, hm, rfl⟩ := List.mem_map.mp hb
      exact Nat.add_le_add (hsmall slot hm).out (hsmall slot hm).buffered.le
    have hsum := List.sum_le_card_nsmul _ _ hbytes
    rw [List.length_map, nsmul_eq_mul, Nat.cast_id] at hsum
    exact hsum.trans (Nat.mul_le_mul_right _ hlen)
  · have hkeys : ∀ b ∈ rt.sessions.map fun slot => slot.session.held.elems.length,
        b ≤ maxHeldKeys := by
      intro b hb
      obtain ⟨slot, hm, rfl⟩ := List.mem_map.mp hb
      exact (hsmall slot hm).held
    have hsum := List.sum_le_card_nsmul _ _ hkeys
    rw [List.length_map, nsmul_eq_mul, Nat.cast_id, ← List.length_flatMap] at hsum
    exact hsum.trans (Nat.mul_le_mul_right _ hlen)

end Ferrokey.Daemon
