import Ferrokey.Daemon.Lifecycle
import Ferrokey.Machine.Monitor

/-! # The clients of the serve loop

The serve loop knows its clients by their positions, and a removal moves all that stand behind
it. Here a client has a number besides, in the order of the accepts, and what a turn does for it
is written down under that number. As long as the closings of the turns are ordered, a client's
slot does in the loop what it does alone, and what is done for its session is lawful.
-/

namespace Ferrokey.Daemon

open Uinput Protocol Machine Collections

/-- A runtime whose clients are numbered in the order in which they were accepted. -/
structure Roster where
  runtime : Runtime
  clients : List ℕ
  accepted : ℕ
  length_eq : clients.length = runtime.sessions.length
  ascending : clients.Pairwise (· < ·)
  known : ∀ c ∈ clients, c < accepted

/-- What the service pass of a turn does for the client at a position. -/
def Runtime.servicedAt (rt : Runtime) (turn : Turn) (i : ℕ) : List LogEntry :=
  match (rt.beforeService turn i).sessions[i]? with
  | none => []
  | some slot => slot.serviced (rt.beforeService turn i).device (turn.io i)

namespace Roster

def start (answer : ℕ → Option String) (maxConnections maxHeldKeys : ℕ) : Roster :=
  ⟨.start answer maxConnections maxHeldKeys, [], 0, rfl, .nil, nofun⟩

/-- The slot of a client, as long as it is connected. -/
def slotOf (r : Roster) (c : ℕ) : Option SessionSlot := r.runtime.sessions[r.clients.idxOf c]?

/-- After the passes of a turn, the clients that it has accepted have the next numbers. -/
def passes (r : Roster) (turn : Turn) : Roster where
  runtime := (r.runtime.passes turn).1
  clients := r.clients ++ List.range' r.accepted
    ((r.runtime.passes turn).1.sessions.length - r.runtime.sessions.length)
  accepted := r.accepted +
    ((r.runtime.passes turn).1.sessions.length - r.runtime.sessions.length)
  length_eq := by
    rw [List.length_append, List.length_range', r.length_eq]
    exact Nat.add_sub_of_le (length_le_passes r.runtime turn)
  ascending := by
    refine List.pairwise_append.mpr ⟨r.ascending, List.pairwise_lt_range', ?_⟩
    intro c hc c' hc'
    exact (r.known c hc).trans_le (List.mem_range'_1.mp hc').1
  known := by
    intro c hc
    rcases List.mem_append.mp hc with hc | hc
    · exact (r.known c hc).trans_le (Nat.le_add_right _ _)
    · exact (List.mem_range'_1.mp hc).2

/-- What the service pass does for the clients. -/
def serviced (r : Roster) (turn : Turn) : List (ℕ × LogEntry) :=
  r.clients.zipIdx.flatMap fun p => (r.runtime.servicedAt turn p.2).map (p.1, ·)

/-- Remove the client at a position and release its keys. -/
def remove (r : Roster) (idx : ℕ) : Option (Roster × List (ℕ × LogEntry)) :=
  if h : idx < r.clients.length then
    have hs : idx < r.runtime.sessions.length := r.length_eq ▸ h
    let session := r.runtime.sessions[idx].session
    let device := (disconnect session r.runtime.device).1
    some (
      { runtime := { r.runtime with device, sessions := r.runtime.sessions.eraseIdx idx }
        clients := r.clients.eraseIdx idx
        accepted := r.accepted
        length_eq := by rw [List.length_eraseIdx_of_lt h, List.length_eraseIdx_of_lt hs, r.length_eq]
        ascending := r.ascending.sublist (List.eraseIdx_sublist ..)
        known := fun c hc => r.known c (List.mem_of_mem_eraseIdx hc) },
      [(r.clients[idx], .removed session.held.elems (written r.runtime.device device))])
  else none

/-- A turn of the serve loop, with what it does for each client. -/
def turn (r : Roster) (turn : Turn) : Option (Roster × List (ℕ × LogEntry)) :=
  let p := r.runtime.passes turn
  (logged remove ((Runtime.firstSeen (p.2.1 ++ p.2.2)).reverse.map Prod.fst) (r.passes turn)).map
    fun out => (out.1, r.serviced turn ++ out.2)

end Roster

section Projection

variable {r : Roster} {turn : Turn}

theorem Runtime.removeEach_eq (rt : Runtime) (is : List ℕ) :
    rt.removeEach is = is.foldlM Runtime.remove rt := by
  induction is generalizing rt with
  | nil => rfl
  | cons i is ih =>
    rw [Runtime.removeEach, List.foldlM_cons]
    exact congrArg _ (funext ih)

theorem Roster.remove_runtime (r : Roster) (idx : ℕ) :
    (r.remove idx).map (fun out => out.1.runtime) = r.runtime.remove idx := by
  unfold Roster.remove Runtime.remove
  split
  next h =>
    rw [List.getElem?_eq_getElem (r.length_eq ▸ h)]
    rfl
  next h =>
    rw [List.getElem?_eq_none (r.length_eq ▸ Nat.not_lt.mp h)]
    rfl

/-- Without the numbers of the clients, a turn is a turn of the serve loop. -/
theorem Roster.turn_runtime (r : Roster) (turn : Turn) :
    (r.turn turn).map (fun out => out.1.runtime) = r.runtime.serveTurn turn := by
  have hloop := logged_map (f := Roster.runtime) Roster.remove_runtime
    ((Runtime.firstSeen ((r.runtime.passes turn).2.1 ++ (r.runtime.passes turn).2.2)).reverse.map
      Prod.fst) (r.passes turn)
  rw [Roster.turn, Option.map_map]
  refine hloop.trans ?_
  rw [← Runtime.removeEach_eq]
  rfl

end Projection

section Removal

variable {r : Roster} {c i : ℕ}

theorem Roster.nodup (r : Roster) : r.clients.Nodup := r.ascending.imp fun h => h.ne

theorem Roster.slotOf_absent (h : c ∉ r.clients) : r.slotOf c = none := by
  rw [Roster.slotOf, List.idxOf_eq_length h, r.length_eq]
  exact List.getElem?_eq_none le_rfl

theorem Roster.mem_of_slotOf {slot : SessionSlot} (h : r.slotOf c = some slot) : c ∈ r.clients := by
  by_contra hc
  rw [slotOf_absent hc] at h
  cases h

/-- The removal of a position takes its client, with the keys of its session, and no other one. -/
theorem Roster.remove_slotOf (h : i < r.clients.length) : ∃ out, r.remove i = some out ∧
    out.1.clients = r.clients.eraseIdx i ∧ out.1.accepted = r.accepted ∧
    (∀ c, r.clients.idxOf c ≠ i → out.1.slotOf c = r.slotOf c ∧ entriesOf c out.2 = []) ∧
    ∀ c, r.clients.idxOf c = i → out.1.slotOf c = none ∧ ∃ slot d, r.slotOf c = some slot ∧
      entriesOf c out.2 =
        [.removed slot.session.held.elems (written d (disconnect slot.session d).1)] := by
  have hs : i < r.runtime.sessions.length := r.length_eq ▸ h
  refine ⟨_, dif_pos h, rfl, rfl, ?_, ?_⟩
  · intro c hc
    constructor
    · simp only [slotOf]
      rcases Nat.lt_or_gt_of_ne hc with hlt | hgt
      · rw [idxOf_eraseIdx_of_lt hlt, List.getElem?_eraseIdx_of_lt hlt]
      · rw [idxOf_eraseIdx_of_gt hgt, List.getElem?_eraseIdx_of_ge (by omega)]
        congr 1
        omega
    · have hne : r.clients[i] ≠ c := by
        rintro rfl
        exact hc (r.nodup.idxOf_getElem i h)
      simp [entriesOf, hne]
  · rintro c rfl
    refine ⟨slotOf_absent (notMem_eraseIdx_idxOf r.nodup), _, r.runtime.device,
      List.getElem?_eq_getElem hs, ?_⟩
    have hget : r.clients[r.clients.idxOf c] = c := List.getElem_idxOf h
    simp [entriesOf, hget]

/-- Positions that are removed in descending order take their clients, and no other ones. -/
theorem Roster.removal_slotOf {is : List ℕ} (hd : is.Pairwise (· > ·))
    (hlt : ∀ i ∈ is, i < r.clients.length) : ∃ out, logged Roster.remove is r = some out ∧
      out.1.accepted = r.accepted ∧
      (∀ c, r.clients.idxOf c ∉ is → out.1.slotOf c = r.slotOf c ∧ entriesOf c out.2 = []) ∧
      ∀ c, r.clients.idxOf c ∈ is → out.1.slotOf c = none ∧ ∃ slot d, r.slotOf c = some slot ∧
        entriesOf c out.2 =
          [.removed slot.session.held.elems (written d (disconnect slot.session d).1)] := by
  induction is generalizing r with
  | nil => exact ⟨(r, []), rfl, rfl, fun c _ => ⟨rfl, rfl⟩, nofun⟩
  | cons i is ih =>
    obtain ⟨hi, hd⟩ := List.pairwise_cons.mp hd
    have hilt := hlt i List.mem_cons_self
    obtain ⟨⟨r₁, log⟩, hone, hclients, haccepted, hother, hself⟩ := remove_slotOf hilt
    dsimp only at hclients haccepted hother hself
    have hlength : r₁.clients.length = r.clients.length - 1 := by
      rw [hclients, List.length_eraseIdx_of_lt hilt]
    obtain ⟨out, hrest, haccepted', hkept, hgone⟩ := ih (r := r₁) hd fun j hj => by
      have := hi j hj
      omega
    -- a position below the first one means the same client before and after its removal
    have hidx : ∀ c, r₁.clients.idxOf c ∈ is ↔ r.clients.idxOf c ∈ is := by
      intro c
      rw [hclients]
      rcases Nat.lt_trichotomy (r.clients.idxOf c) i with hc | rfl | hc
      · rw [idxOf_eraseIdx_of_lt hc]
      · rw [List.idxOf_eq_length (notMem_eraseIdx_idxOf r.nodup),
          List.length_eraseIdx_of_lt hilt]
        refine iff_of_false (fun hm => ?_) fun hm => Nat.lt_irrefl _ (hi _ hm)
        have := hi _ hm
        omega
      · rw [idxOf_eraseIdx_of_gt hc]
        refine iff_of_false (fun hm => ?_) fun hm => Nat.lt_asymm hc (hi _ hm)
        have := hi _ hm
        omega
    refine ⟨(out.1, log ++ out.2), by simp [logged, hone, hrest], haccepted'.trans haccepted,
      fun c hc => ?_, fun c hc => ?_⟩
    · obtain ⟨hne, hc⟩ := not_or.mp (mt List.mem_cons.mpr hc)
      obtain ⟨hslot, hlog⟩ := hkept c (mt (hidx c).mp hc)
      obtain ⟨hslot₁, hlog₁⟩ := hother c hne
      rw [entriesOf_append, hlog, hlog₁]
      exact ⟨hslot.trans hslot₁, rfl⟩
    · rcases List.mem_cons.mp hc with hc | hc
      · obtain ⟨hslot₁, slot, d, hslot, hlog₁⟩ := hself c hc
        have hnot : r₁.clients.idxOf c ∉ is := by
          rw [hidx, hc]
          exact fun hm => Nat.lt_irrefl i (hi i hm)
        obtain ⟨hslot', hlog⟩ := hkept c hnot
        exact ⟨hslot'.trans hslot₁, slot, d, hslot, by rw [entriesOf_append, hlog₁, hlog]; rfl⟩
      · have hne : r.clients.idxOf c ≠ i := (hi _ hc).ne
        obtain ⟨hslot', slot, d, hslot, hlog⟩ := hgone c ((hidx c).mpr hc)
        obtain ⟨hslot₁, hlog₁⟩ := hother c hne
        exact ⟨hslot', slot, d, hslot₁ ▸ hslot, by rw [entriesOf_append, hlog₁, hlog]; rfl⟩

end Removal

section Turn

variable {r : Roster} {turn : Turn} {c : ℕ} {slot : SessionSlot}

/-- In the passes of a turn, a client that is connected is serviced and flushed as by itself. -/
theorem Roster.passes_slotOf (turn : Turn) (h : r.slotOf c = some slot) :
    (r.passes turn).clients.idxOf c = r.clients.idxOf c ∧ (r.passes turn).slotOf c =
      some ((slot.service (r.runtime.beforeService turn (r.clients.idxOf c)).device
        (turn.io (r.clients.idxOf c))).1.flush (turn.io (r.clients.idxOf c))).1 := by
  have hidx : (r.passes turn).clients.idxOf c = r.clients.idxOf c :=
    List.idxOf_append_of_mem (mem_of_slotOf h)
  refine ⟨hidx, ?_⟩
  rw [slotOf, hidx]
  exact (Runtime.passes_slot turn h).2.1

/-- A client that is not connected is not there after the passes either, unless it has just been
accepted: then nothing has been done for it. -/
theorem Roster.passes_absent (h : c ∉ r.clients) :
    (r.passes turn).slotOf c = none ∨
      r.accepted ≤ c ∧ ∃ fd n, (r.passes turn).slotOf c = some (.new fd (.new n)) := by
  by_cases hc : c ∈ (r.passes turn).clients
  · right
    rcases List.mem_append.mp hc with hold | hnew
    · exact absurd hold h
    refine ⟨(List.mem_range'_1.mp hnew).1, ?_⟩
    have hidx : r.runtime.sessions.length ≤ (r.passes turn).clients.idxOf c := by
      rw [← r.length_eq]
      exact (List.idxOf_append_of_notMem h).ge.trans' (Nat.le_add_right _ _)
    obtain ⟨fds, hfds⟩ := Runtime.acceptPending_eq r.runtime turn.pending
    have hlt : (r.passes turn).clients.idxOf c < (r.passes turn).runtime.sessions.length :=
      (r.passes turn).length_eq ▸ List.idxOf_lt_length_of_mem hc
    have hslot : (r.passes turn).slotOf c =
        (fds.map fun fd => SessionSlot.new fd (.new r.runtime.maxHeldKeys))[
          (r.passes turn).clients.idxOf c - r.runtime.sessions.length]? := by
      refine (Runtime.passes_new hidx).trans ?_
      rw [hfds, List.getElem?_append_right hidx]
    have hsome : (r.passes turn).slotOf c ≠ none :=
      mt List.getElem?_eq_none_iff.mp (Nat.not_le.mpr hlt)
    rw [hslot, List.getElem?_map] at hsome ⊢
    cases hfd : fds[(r.passes turn).clients.idxOf c - r.runtime.sessions.length]? with
    | none => exact absurd (by rw [hfd]; rfl) hsome
    | some fd => exact ⟨fd, _, rfl⟩
  · exact .inl (slotOf_absent hc)

/-- What the service pass does for a client is what it does at its slot. -/
theorem Roster.entriesOf_serviced (r : Roster) (turn : Turn) (c : ℕ) :
    entriesOf c (r.serviced turn) = match r.slotOf c with
      | none => []
      | some slot => slot.serviced (r.runtime.beforeService turn (r.clients.idxOf c)).device
          (turn.io (r.clients.idxOf c)) := by
  rw [serviced, entriesOf_flatMap_zipIdx r.nodup, Nat.zero_add]
  cases h : r.slotOf c with
  | none =>
    refine if_neg fun hc => ?_
    have hlt := List.idxOf_lt_length_of_mem hc
    rw [slotOf, List.getElem?_eq_getElem (r.length_eq ▸ hlt)] at h
    cases h
  | some slot =>
    rw [if_pos (mem_of_slotOf h), Runtime.servicedAt, (Runtime.passes_slot turn h).1]

/-- A turn whose closings are ordered does not panic. Each client that was there does in it what
it does alone, and nothing is done for any other one. -/
theorem Roster.turn_slotOf (h : (r.runtime.closings turn).Ordered) : ∃ out,
    r.turn turn = some out ∧ out.1.accepted = (r.passes turn).accepted ∧
    (∀ c, c ∉ r.clients → entriesOf c out.2 = [] ∧ (out.1.slotOf c = none ∨
      r.accepted ≤ c ∧ ∃ fd n, out.1.slotOf c = some (.new fd (.new n)))) ∧
    ∀ c ∈ r.clients, ∃ d', slotStep (r.slotOf c) ⟨turn.io (r.clients.idxOf c),
      (r.runtime.beforeService turn (r.clients.idxOf c)).device, d'⟩ =
        (out.1.slotOf c, entriesOf c out.2) := by
  have hpositions : (Runtime.firstSeen ((r.runtime.passes turn).2.1 ++
      (r.runtime.passes turn).2.2)).reverse.map Prod.fst =
        (r.runtime.closings turn).flushOnly.reverse ++
          ((r.runtime.closings turn).service.map Prod.fst).reverse :=
    firstSeen_reverse (r.runtime.closings turn)
  have hmem : ∀ i, i ∈ (r.runtime.closings turn).flushOnly.reverse ++
      ((r.runtime.closings turn).service.map Prod.fst).reverse ↔
        ∃ reason, (i, reason) ∈ (r.runtime.passes turn).2.1 ++ (r.runtime.passes turn).2.2 := by
    intro i
    rw [← mem_toClose_iff, List.mem_map]
    constructor
    · rintro ⟨⟨_, reason⟩, hm, rfl⟩
      exact ⟨reason, hm⟩
    · rintro ⟨reason, hm⟩
      exact ⟨_, hm, rfl⟩
  obtain ⟨out, hrun, haccepted, hkept, hgone⟩ := removal_slotOf (r := r.passes turn) h.descending
    fun i hi => by
      rw [(r.passes turn).length_eq]
      rcases List.mem_append.mp hi with hi | hi
      · exact flushOnly_lt i (List.mem_reverse.mp hi)
      · exact (r.runtime.closings turn).service_lt i (List.mem_reverse.mp hi)
  refine ⟨(out.1, r.serviced turn ++ out.2), ?_, haccepted, fun c hc => ?_, fun c hc => ?_⟩
  · simp only [Roster.turn, hpositions, hrun, Option.map_some]
  · have hidx : (r.passes turn).clients.idxOf c ∉ (r.runtime.closings turn).flushOnly.reverse ++
        ((r.runtime.closings turn).service.map Prod.fst).reverse := by
      rw [hmem]
      rintro ⟨reason, hreason⟩
      have hlt := lt_of_mem_passes hreason
      rw [← r.length_eq] at hlt
      exact absurd ((List.idxOf_append_of_notMem hc).ge.trans' (Nat.le_add_right _ _))
        (Nat.not_le.mpr hlt)
    obtain ⟨hslot, hlog⟩ := hkept c hidx
    rw [entriesOf_append, hlog, List.append_nil, entriesOf_serviced, slotOf_absent hc, hslot]
    exact ⟨rfl, passes_absent hc⟩
  · have hlt : r.clients.idxOf c < r.runtime.sessions.length :=
      r.length_eq ▸ List.idxOf_lt_length_of_mem hc
    have hslot : r.slotOf c = some r.runtime.sessions[r.clients.idxOf c] :=
      List.getElem?_eq_getElem hlt
    obtain ⟨hidx, hpasses⟩ := passes_slotOf turn hslot
    have hends := (Runtime.passes_slot turn hslot).2.2
    rw [entriesOf_append, entriesOf_serviced, hslot]
    by_cases hclosed : (r.passes turn).clients.idxOf c ∈
        (r.runtime.closings turn).flushOnly.reverse ++
          ((r.runtime.closings turn).service.map Prod.fst).reverse
    · obtain ⟨hnone, slot, d, hsome, hlog⟩ := hgone c hclosed
      rw [hpasses] at hsome
      cases hsome
      rw [hmem, hidx] at hclosed
      rw [hnone, hlog]
      exact ⟨d, slotStep_of_none ((hends d).mp hclosed)⟩
    · obtain ⟨hsame, hlog⟩ := hkept c hclosed
      rw [hmem, hidx] at hclosed
      rw [hsame, hlog, hpasses, List.append_nil]
      exact ⟨r.runtime.device, slotStep_of_some (mt (hends _).mpr hclosed)⟩

end Turn

section Device

variable {r : Roster} {turn : Turn}

/-- The events of some entries, whoever they were made for. -/
def loggedEvents (log : List (ℕ × LogEntry)) : List InputEvent := log.flatMap fun e => e.2.events

@[simp] theorem loggedEvents_append (log log' : List (ℕ × LogEntry)) :
    loggedEvents (log ++ log') = loggedEvents log ++ loggedEvents log' := List.flatMap_append

/-- The service pass writes what it does for the clients that it has come to. -/
theorem Runtime.beforeService_log (rt : Runtime) (turn : Turn) (n : ℕ) :
    (rt.beforeService turn n).device.dev.fd.log = rt.device.dev.fd.log ++
      (List.range n).flatMap fun i => (rt.servicedAt turn i).flatMap LogEntry.events := by
  induction n with
  | zero =>
    obtain ⟨fds, hfds⟩ := acceptPending_eq rt turn.pending
    simp [beforeService, servicePass, hfds]
  | succ n ih =>
    have hstep : rt.beforeService turn (n + 1) = (serviceAt turn.io
        (servicePass turn.io n (rt.acceptPending turn.pending)) n).1 := by
      rw [beforeService, servicePass, List.range_succ, List.foldl_append]
      rfl
    rw [hstep, List.range_succ, List.flatMap_append, ← List.append_assoc, ← ih,
      List.flatMap_singleton, servicedAt, beforeService]
    cases hs : (servicePass turn.io n (rt.acceptPending turn.pending)).1.sessions[n]? with
    | none => cases hr : (turn.io n).revents <;> simp [serviceAt, hs, hr]
    | some slot =>
      rw [serviceAt_eq hs]
      exact service_written slot _ (turn.io n)

theorem Runtime.flushPass_device (io : ℕ → ClientIo) (n : ℕ) (rt : Runtime) :
    (flushPass io n rt).1.device = rt.device := by
  refine List.foldlRecOn (motive := fun acc : Runtime × List (ℕ × String) =>
    acc.1.device = rt.device) _ _ rfl fun acc hacc i _ => ?_
  cases hs : acc.1.sessions[i]? with
  | none => simpa [flushAt, hs] using hacc
  | some slot => simpa [flushAt_eq hs] using hacc

theorem Roster.passes_log (r : Roster) (turn : Turn) :
    (r.passes turn).runtime.device.dev.fd.log =
      r.runtime.device.dev.fd.log ++ loggedEvents (r.serviced turn) := by
  have hdevice : (r.passes turn).runtime.device =
      (r.runtime.beforeService turn r.runtime.sessions.length).device :=
    Runtime.flushPass_device ..
  have hserviced : loggedEvents (r.serviced turn) = (List.range r.runtime.sessions.length).flatMap
      fun i => (r.runtime.servicedAt turn i).flatMap LogEntry.events := by
    have hsnd : List.range r.runtime.sessions.length = r.clients.zipIdx.map Prod.snd := by
      rw [List.zipIdx_map_snd, List.range_eq_range', r.length_eq]
    rw [hsnd, List.flatMap_map, loggedEvents, serviced, List.flatMap_assoc]
    simp [List.flatMap_map]
  rw [hdevice, hserviced, Runtime.beforeService_log]

theorem Roster.remove_log {i : ℕ} {out : Roster × List (ℕ × LogEntry)}
    (h : r.remove i = some out) : out.1.runtime.device.dev.fd.log =
      r.runtime.device.dev.fd.log ++ loggedEvents out.2 := by
  unfold Roster.remove at h
  split at h
  · cases h
    simp [loggedEvents, LogEntry.events, disconnect_written]
  · cases h

/-- All events that a turn writes are written down for some client. -/
theorem Roster.turn_log {out : Roster × List (ℕ × LogEntry)} (h : r.turn turn = some out) :
    out.1.runtime.device.dev.fd.log = r.runtime.device.dev.fd.log ++ loggedEvents out.2 := by
  obtain ⟨⟨r', log⟩, hrun, rfl⟩ := Option.map_eq_some_iff.mp h
  have hremoved := logged_invariant
    (fun log (s : Roster) => s.runtime.device.dev.fd.log =
      (r.passes turn).runtime.device.dev.fd.log ++ loggedEvents log)
    (fun log s i out hs hone => by
      rw [remove_log hone, hs, loggedEvents_append, List.append_assoc])
    (List.append_nil _).symm hrun
  rw [hremoved, passes_log, loggedEvents_append, List.append_assoc]

end Device

instance {n : ℕ} (c : Closings n) : Decidable c.Ordered :=
  inferInstanceAs (Decidable (∀ f ∈ c.flushOnly, ∀ s ∈ c.service.map Prod.fst, s < f))

/-- The closings of every turn are ordered. -/
def OrderedTurns : Runtime → List Turn → Prop
  | _, [] => True
  | rt, turn :: turns =>
    (rt.closings turn).Ordered ∧ ∀ rt' ∈ rt.serveTurn turn, OrderedTurns rt' turns

instance decidableOrderedTurns : (rt : Runtime) → (turns : List Turn) →
    Decidable (OrderedTurns rt turns)
  | _, [] => inferInstanceAs (Decidable True)
  | rt, turn :: turns =>
    have := fun rt' => decidableOrderedTurns rt' turns
    inferInstanceAs (Decidable ((rt.closings turn).Ordered ∧
      ∀ rt' ∈ rt.serveTurn turn, OrderedTurns rt' turns))

namespace Roster

variable {r : Roster} {log : List (ℕ × LogEntry)}

/-- The log of every client, as far as it goes on; a client that is not yet there has none. -/
structure Accounted (log : List (ℕ × LogEntry)) (r : Roster) : Prop where
  accounts : ∀ c, Accounts (entriesOf c log) (r.slotOf c)
  new : ∀ c, r.accepted ≤ c → entriesOf c log = []

theorem Accounted.start (answer : ℕ → Option String) (maxConnections maxHeldKeys : ℕ) :
    Accounted [] (.start answer maxConnections maxHeldKeys) := ⟨fun _ => throughout_nil, fun _ _ => rfl⟩

theorem Accounted.turn {turn : Turn} (h : Accounted log r) (ho : (r.runtime.closings turn).Ordered) :
    ∃ out, r.turn turn = some out ∧ Accounted (log ++ out.2) out.1 := by
  obtain ⟨out, hout, haccepted, hother, hstep⟩ := turn_slotOf ho
  refine ⟨out, hout, fun c => ?_, fun c hc => ?_⟩
  · rw [entriesOf_append]
    by_cases hc : c ∈ r.clients
    · obtain ⟨d', hd'⟩ := hstep c hc
      have hnext := (h.accounts c).step ⟨turn.io (r.clients.idxOf c),
        (r.runtime.beforeService turn (r.clients.idxOf c)).device, d'⟩
      rwa [hd'] at hnext
    · obtain ⟨hnone, hslot⟩ := hother c hc
      rw [hnone, List.append_nil]
      rcases hslot with hslot | ⟨hnew, fd, n, hslot⟩
      · rw [hslot]
        exact (h.accounts c).lawful
      · rw [hslot, h.new c hnew]
        exact (Knows.new n).of_imp fun _ => trivial
  · have hnew : r.accepted ≤ c := le_trans (Nat.le_add_right _ _) (haccepted.ge.trans hc)
    rw [entriesOf_append, h.new c hnew,
      (hother c fun hm => absurd (r.known c hm) (Nat.not_lt.mpr hnew)).1]
    rfl

theorem Accounted.run {turns : List Turn} (h : Accounted log r)
    (ho : OrderedTurns r.runtime turns) :
    ∃ out, logged Roster.turn turns r = some out ∧ Accounted (log ++ out.2) out.1 := by
  induction turns generalizing r log with
  | nil => exact ⟨(r, []), rfl, by rwa [List.append_nil]⟩
  | cons turn turns ih =>
    obtain ⟨hclosings, hrest⟩ := ho
    obtain ⟨⟨r₁, log₁⟩, hone, h₁⟩ := h.turn hclosings
    have hrt : r₁.runtime ∈ r.runtime.serveTurn turn := by
      rw [← turn_runtime, hone]
      exact rfl
    obtain ⟨⟨r₂, later⟩, hrun, h₂⟩ := ih h₁ (hrest _ hrt)
    exact ⟨(r₂, log₁ ++ later), by simp [logged, hone, hrun], by rwa [← List.append_assoc]⟩

theorem remove_accepted {i : ℕ} {out : Roster × List (ℕ × LogEntry)} (h : r.remove i = some out) :
    out.1.accepted = r.accepted := by
  unfold remove at h
  split at h
  · cases h
    rfl
  · cases h

/-- Numbers are given once. -/
theorem accepted_le {turn : Turn} {out : Roster × List (ℕ × LogEntry)}
    (h : r.turn turn = some out) : r.accepted ≤ out.1.accepted := by
  obtain ⟨⟨r', log⟩, hrun, rfl⟩ := Option.map_eq_some_iff.mp h
  have hremoved := logged_invariant
    (fun _ (s : Roster) => s.accepted = (r.passes turn).accepted)
    (fun _ _ _ _ hs hone => (remove_accepted hone).trans hs) rfl hrun
  exact (Nat.le_add_right _ _).trans_eq hremoved.symm

/-- Without the numbers of the clients, turns are the turns of the serve loop. -/
theorem logged_runtime {turns : List Turn} {out : Roster × List (ℕ × LogEntry)}
    (h : logged Roster.turn turns r = some out) : r.runtime.serveLoop turns = some out.1.runtime := by
  have hloop := logged_map (f := Roster.runtime) turn_runtime turns r
  rw [h] at hloop
  exact hloop.symm

end Roster

/-- As long as the closings of the turns are ordered, the serve loop goes on, every event on its
device is written down for some client, and whatever arrives at a client's slot, in whatever
chunks, everything that is done for its session is lawful. -/
theorem handshake_of_serveLoop {answer : ℕ → Option String} {maxConnections maxHeldKeys : ℕ}
    {turns : List Turn} (h : OrderedTurns (.start answer maxConnections maxHeldKeys) turns) :
    ∃ r log, logged Roster.turn turns (.start answer maxConnections maxHeldKeys) = some (r, log) ∧
      (Runtime.start answer maxConnections maxHeldKeys).serveLoop turns = some r.runtime ∧
      r.runtime.device.dev.fd.log = loggedEvents log ∧
      ∀ c, Throughout Lawful (entriesOf c log) := by
  obtain ⟨⟨r, log⟩, hrun, haccounted⟩ :=
    Roster.Accounted.run (.start answer maxConnections maxHeldKeys) h
  have hlog := logged_invariant (fun log (s : Roster) => s.runtime.device.dev.fd.log = loggedEvents log)
    (fun log s turn out hs hone => by rw [Roster.turn_log hone, hs, loggedEvents_append])
    rfl hrun
  exact ⟨r, log, hrun, Roster.logged_runtime hrun, hlog, fun c => (haccounted.accounts c).lawful⟩

/-- Three clients are accepted. -/
def threeAccepted : Turn :=
  ⟨[⟨5, true⟩, ⟨6, true⟩, ⟨7, true⟩], fun _ => ⟨none, .wouldBlock, fun _ => true, []⟩⟩

/-- A client sends some bytes, and its socket takes a reply. -/
def sending (data : List UInt8) : ClientIo := ⟨some true, .bytes data, fun _ => true, [.accepted 100]⟩

/-- The frames of a greeting, of the opening of a session and of a press. -/
def greetAndPress (code : UInt8) : List UInt8 :=
  [0x46, 0x4B, 0x30, 0x31, 5, 0, 1, 2, 1, 0, 0x66] ++ [0x46, 0x4B, 0x30, 0x31, 1, 0, 2] ++
    [0x46, 0x4B, 0x30, 0x31, 3, 0, 0x10, code, 0]

/-- The first client presses a key and hangs up, the second one presses a key without a greeting,
and the third one opens a session without one. -/
def pressAndMisuse : List Turn :=
  [threeAccepted,
    ⟨[], fun i => match i with
      | 0 => sending (greetAndPress 30)
      | 1 => sending [0x46, 0x4B, 0x30, 0x31, 3, 0, 0x10, 30, 0]
      | _ => sending [0x46, 0x4B, 0x30, 0x31, 1, 0, 2]⟩,
    ⟨[], fun _ => sending []⟩]

theorem handshake_of_serveLoop_pressAndMisuse : ∃ r log,
    logged Roster.turn pressAndMisuse (.start (fun _ => none) 8 16) = some (r, log) ∧
      entriesOf 0 log =
        [.processed (.hello 2 "f") .keep [], .processed .openSession (.reply .ok) [],
          .processed (.keyDown 30) .keep [⟨30, 1⟩], .removed [30] [⟨30, 0⟩]] ∧
      entriesOf 1 log = [.processed (.keyDown 30) .close [], .removed [] []] ∧
      (entriesOf 2 log).length = 2 ∧ r.clients = [] ∧
      ∀ c, Throughout Lawful (entriesOf c log) := by
  have hordered : OrderedTurns (.start (fun _ => none) 8 16) pressAndMisuse := by decide
  obtain ⟨r, log, hrun, -, -, hlawful⟩ := handshake_of_serveLoop hordered
  have hentries : (logged Roster.turn pressAndMisuse (.start (fun _ => none) 8 16)).map
      (fun out => (entriesOf 0 out.2, entriesOf 1 out.2, (entriesOf 2 out.2).length,
        out.1.clients)) =
      some ([.processed (.hello 2 "f") .keep [], .processed .openSession (.reply .ok) [],
          .processed (.keyDown 30) .keep [⟨30, 1⟩], .removed [30] [⟨30, 0⟩]],
        [.processed (.keyDown 30) .close [], .removed [] []], 2, []) := by decide
  rw [hrun] at hentries
  simp only [Option.map_some, Option.some.injEq, Prod.mk.injEq] at hentries
  obtain ⟨h₀, h₁, h₂, hclients⟩ := hentries
  exact ⟨r, log, hrun, h₀, h₁, h₂, hclients, hlawful⟩

/-- The flush pass closes the first client after the service pass has closed the second one, so
that the third one is removed in its place. -/
def misuseThenGreet : List Turn :=
  [threeAccepted,
    ⟨[], fun i => match i with
      | 0 => sending [0x46, 0x4B, 0x30, 0x31, 1, 0, 2]
      | 1 => sending [0x46, 0x4B, 0x30, 0x31, 3, 0, 0x10, 30, 0]
      | _ => ⟨none, .wouldBlock, fun _ => true, []⟩⟩,
    ⟨[], fun _ => sending (greetAndPress 31)⟩]

/-- The second client goes on after its close, and writes to the device. -/
theorem misuseThenGreet_served : ¬ ∀ (turns : List Turn) (r : Roster) (log : List (ℕ × LogEntry)),
    logged Roster.turn turns (.start (fun _ => none) 8 16) = some (r, log) →
      ∀ c, Throughout Lawful (entriesOf c log) := by
  intro h
  have hentries : (logged Roster.turn misuseThenGreet (.start (fun _ => none) 8 16)).map
      (fun out => entriesOf 1 out.2) =
      some [.processed (.keyDown 30) .close [], .processed (.hello 2 "f") .keep [],
        .processed .openSession (.reply .ok) [], .processed (.keyDown 31) .keep [⟨31, 1⟩]] := by
    decide
  obtain ⟨⟨r, log⟩, hrun, hlog⟩ := Option.map_eq_some_iff.mp hentries
  have hlawful := h misuseThenGreet r log hrun 1
  rw [hlog] at hlawful
  obtain ⟨held, events, hremoved, -⟩ := (hlawful
    [.processed (.keyDown 30) .close [], .processed (.hello 2 "f") .keep [],
      .processed .openSession (.reply .ok) []]
    (.processed (.keyDown 31) .keep [⟨31, 1⟩]) List.prefix_rfl).ended
      (.processed (.keyDown 30) .close []) List.mem_cons_self trivial
  cases hremoved

end Ferrokey.Daemon
