import Ferrokey.Daemon.Serve
import Ferrokey.Machine.Runs
import Mathlib.Data.List.ReduceOption

/-! # The bytes of replies

Replies are queued as whole frames, and the socket takes the bytes of the queue in pieces
of any length. However the two alternate, the bytes that were sent and those that are still
to be sent are together the frames of the replies that were accepted, one after the other.
-/

namespace Ferrokey.Daemon

open Protocol Machine

/-- A call at the reply queue of a session, with what the socket answers in it. -/
inductive ReplyCall where
  | queue (msg : Message)
  | flush (writes : List WriteResult)

/-- The socket takes some bytes, or it would block. -/
def WriteResult.Proceeds : WriteResult → Prop
  | .accepted n => 0 < n
  | .wouldBlock => True
  | .failed _ => False

namespace SessionSlot

/-- One call, with the reply that was accepted in it. -/
def reply (slot : SessionSlot) : ReplyCall → SessionSlot × Option Message
  | .queue msg =>
    ((slot.queueReply msg).1, if (slot.queueReply msg).2.isOk then some msg else none)
  | .flush writes => ((slot.flushOut writes).1, none)

/-- The replies that were accepted in some calls. -/
def accepted (slot : SessionSlot) (calls : List ReplyCall) : List Message :=
  (outputs reply slot calls).reduceOption

/-- The bytes that are sent and those that are still to be sent are the frames of some replies, and
there are not too many that are still to be sent. -/
structure Carries (replies : List Message) (slot : SessionSlot) : Prop where
  frames : ∃ frames : List (List UInt8), replies.map encode = frames.map .ok ∧
    slot.stream.sent ++ slot.out = frames.flatten
  bounded : slot.out.length ≤ maxPendingOut

variable {slot : SessionSlot} {replies : List Message}

/-- A flush in which the socket does not fail tells whether the queue is empty. -/
theorem flushOut_snd (slot : SessionSlot) {writes : List WriteResult}
    (h : ∀ w ∈ writes, w.Proceeds) :
    (slot.flushOut writes).2 = .ok (slot.flushOut writes).1.out.isEmpty := by
  induction writes generalizing slot with
  | nil => rfl
  | cons w writes ih =>
    obtain ⟨hw, hrest⟩ := List.forall_mem_cons.mp h
    unfold flushOut
    split
    next hempty => exact congrArg Except.ok hempty.symm
    next hpending =>
      split
      · exact absurd hw (lt_irrefl 0)
      · exact ih _ hrest
      · exact congrArg Except.ok (by simpa using hpending)
      · exact hw.elim

theorem Carries.queue (h : Carries replies slot) {msg : Message} {frame : List UInt8}
    (hencode : encode msg = .ok frame) (hroom : slot.out.length + frame.length ≤ maxPendingOut) :
    Carries (replies ++ [msg]) { slot with out := slot.out ++ frame } := by
  obtain ⟨frames, hframes, hbytes⟩ := h.frames
  refine ⟨⟨frames ++ [frame], ?_, ?_⟩, ?_⟩
  · rw [List.map_append, List.map_append, hframes, List.map_singleton, hencode,
      List.map_singleton]
  · rw [List.flatten_append, ← hbytes, List.flatten_singleton, List.append_assoc]
  · rwa [List.length_append]

theorem Carries.flush (h : Carries replies slot) (writes : List WriteResult) :
    Carries replies (slot.flushOut writes).1 := by
  obtain ⟨n, hflush⟩ := slot.flushOut_fst writes
  obtain ⟨frames, hframes, hbytes⟩ := h.frames
  rw [hflush]
  refine ⟨⟨frames, hframes, ?_⟩, ?_⟩
  · rw [List.append_assoc, List.take_append_drop, hbytes]
  · rw [List.length_drop]
    exact (Nat.sub_le _ _).trans h.bounded

/-- A call adds the reply that it accepts to those that are carried. -/
theorem Carries.reply (h : Carries replies slot) (c : ReplyCall) :
    Carries (replies ++ (slot.reply c).2.toList) (slot.reply c).1 := by
  cases c with
  | queue msg =>
    rcases slot.queueReply_cases msg with ⟨frame, hencode, hroom, hqueue⟩ | ⟨e, hqueue⟩
    · rw [SessionSlot.reply, hqueue]
      exact h.queue hencode hroom
    · rw [SessionSlot.reply, hqueue]
      exact (List.append_nil replies).symm ▸ h
  | flush writes => exact (List.append_nil replies).symm ▸ h.flush writes

theorem accepted_concat (slot : SessionSlot) (calls : List ReplyCall) (c : ReplyCall) :
    slot.accepted (calls ++ [c]) =
      slot.accepted calls ++ ((run SessionSlot.reply slot calls).reply c).2.toList := by
  rw [accepted, outputs_concat, List.reduceOption_append, accepted]
  cases ((run SessionSlot.reply slot calls).reply c).2 <;> rfl

theorem carries_run (fd : ℕ) (session : ClientSession) (calls : List ReplyCall) :
    Carries ((new fd session).accepted calls)
      (run SessionSlot.reply (new fd session) calls) := by
  induction calls using List.reverseRecOn with
  | nil => exact ⟨⟨[], rfl, rfl⟩, Nat.zero_le _⟩
  | append_singleton calls c ih =>
    rw [accepted_concat, run_append]
    exact ih.reply c

/-- No byte is lost, repeated or moved, the queue is bounded all the time, a rejected reply changes
nothing, and a flush tells whether the queue is empty. -/
structure ReplyIntegrity (slot₀ : SessionSlot) (calls : List ReplyCall) : Prop where
  frames : ∃ frames : List (List UInt8), (slot₀.accepted calls).map encode = frames.map .ok ∧
    (run SessionSlot.reply slot₀ calls).stream.sent ++ (run SessionSlot.reply slot₀ calls).out =
      frames.flatten
  bounded : Always SessionSlot.reply (fun slot => slot.out.length ≤ maxPendingOut) slot₀ calls
  rejected : ∀ msg e, ((run SessionSlot.reply slot₀ calls).queueReply msg).2 = .error e →
    ((run SessionSlot.reply slot₀ calls).queueReply msg).1 = run SessionSlot.reply slot₀ calls
  flushed : ∀ writes, (∀ w ∈ writes, w.Proceeds) →
    ((run SessionSlot.reply slot₀ calls).flushOut writes).2 =
      .ok ((run SessionSlot.reply slot₀ calls).flushOut writes).1.out.isEmpty

theorem run_replyIntegrity (fd : ℕ) (session : ClientSession) (calls : List ReplyCall) :
    ReplyIntegrity (new fd session) calls where
  frames := (carries_run fd session calls).frames
  bounded pre _ := (carries_run fd session pre).bounded
  rejected msg e h := by
    rcases queueReply_cases (run SessionSlot.reply (new fd session) calls) msg with
      ⟨frame, -, -, hqueue⟩ | ⟨e', hqueue⟩
    · rw [hqueue] at h
      cases h
    · rw [hqueue]
  flushed _ h := flushOut_snd _ h

end SessionSlot

end Ferrokey.Daemon
