import Ferrokey.Daemon.Serve

/-! # Closing sessions in one turn

Each of the two passes collects positions in ascending order, and the removal
walks the joint list backwards. That is a descending walk only if every session
that the flush pass adds stands behind all those the service pass closes.
-/

namespace Ferrokey.Daemon

open Uinput Protocol Collections

/-- The closings of one turn over a vector of sessions: what the service pass and the
flush pass collected, each in ascending order and inside the vector. -/
structure Closings (n : ℕ) where
  service : List (ℕ × String)
  flush : List (ℕ × String)
  service_sorted : (service.map Prod.fst).Pairwise (· < ·)
  flush_sorted : (flush.map Prod.fst).Pairwise (· < ·)
  service_lt : ∀ i ∈ service.map Prod.fst, i < n
  flush_lt : ∀ i ∈ flush.map Prod.fst, i < n

namespace Closings

variable {n : ℕ} (c : Closings n)

/-- All closings of the turn, in the order they were collected in. -/
def toClose : List (ℕ × String) := c.service ++ c.flush

/-- The positions that only the flush pass closes. -/
def flushOnly : List ℕ := (c.flush.map Prod.fst).filter (· ∉ c.service.map Prod.fst)

/-- Every session that only the flush pass closes stands behind all those that the
service pass closes. -/
def Ordered : Prop := ∀ f ∈ c.flushOnly, ∀ s ∈ c.service.map Prod.fst, s < f

end Closings

section Passes

/-- What a visit to the client at a position can do to the vector and the closings. -/
structure Visits (i : ℕ) (acc acc' : Runtime × List (ℕ × String)) : Prop where
  length_eq : acc'.1.sessions.length = acc.1.sessions.length
  collects : acc'.2 = acc.2 ∨ ∃ reason, acc'.2 = acc.2 ++ [(i, reason)]

theorem Visits.refl (i : ℕ) (acc : Runtime × List (ℕ × String)) : Visits i acc acc :=
  ⟨rfl, Or.inl rfl⟩

theorem serviceAt_visits (io : ℕ → ClientIo) (acc : Runtime × List (ℕ × String)) (i : ℕ) :
    Visits i acc (Runtime.serviceAt io acc i) := by
  unfold Runtime.serviceAt
  split
  · split
    · exact .refl i acc
    dsimp only
    split
    · exact ⟨by simp, Or.inl rfl⟩
    · exact ⟨by simp, Or.inr ⟨_, rfl⟩⟩
  · exact .refl i acc

theorem flushAt_visits (io : ℕ → ClientIo) (acc : Runtime × List (ℕ × String)) (i : ℕ) :
    Visits i acc (Runtime.flushAt io acc i) := by
  unfold Runtime.flushAt
  split
  · exact .refl i acc
  dsimp only
  split
  · exact .refl i acc
  split
  · exact .refl i acc
  split
  · split
    · exact ⟨by simp, Or.inr ⟨_, rfl⟩⟩
    · exact ⟨by simp, Or.inl rfl⟩
  · exact ⟨by simp, Or.inl rfl⟩
  · exact ⟨by simp, Or.inr ⟨_, rfl⟩⟩

variable {f : Runtime × List (ℕ × String) → ℕ → Runtime × List (ℕ × String)}

/-- A pass over positions keeps the vector's length and collects some of the positions,
in order. -/
theorem foldl_visits (hf : ∀ acc i, Visits i acc (f acc i)) (is : List ℕ) (rt : Runtime) :
    (is.foldl f (rt, [])).1.sessions.length = rt.sessions.length ∧
      ((is.foldl f (rt, [])).2.map Prod.fst).Sublist is := by
  induction is using List.reverseRecOn with
  | nil => exact ⟨rfl, List.Sublist.slnil⟩
  | append_singleton is i ih =>
    rw [List.foldl_append, List.foldl_cons, List.foldl_nil]
    obtain ⟨hlen, hcol⟩ := hf (is.foldl f (rt, [])) i
    refine ⟨hlen.trans ih.1, ?_⟩
    rcases hcol with h | ⟨reason, h⟩
    · rw [h]
      exact ih.2.trans (List.sublist_append_left is [i])
    · rw [h, List.map_append]
      exact ih.2.append (List.Sublist.refl [i])

theorem acceptPending_length (rt : Runtime) (ps : List Pending) :
    rt.sessions.length ≤ (rt.acceptPending ps).sessions.length := by
  induction ps generalizing rt with
  | nil => exact le_rfl
  | cons p ps ih =>
    rw [Runtime.acceptPending]
    split
    · exact ih rt
    split
    · refine le_trans ?_ (ih _)
      simp
    · exact ih rt

theorem passes_length (rt : Runtime) (turn : Turn) : (rt.passes turn).1.sessions.length =
    (rt.acceptPending turn.pending).sessions.length :=
  (foldl_visits (flushAt_visits turn.io) _ _).1.trans (foldl_visits (serviceAt_visits turn.io) _ _).1

theorem length_le_passes (rt : Runtime) (turn : Turn) :
    rt.sessions.length ≤ (rt.passes turn).1.sessions.length :=
  (acceptPending_length rt turn.pending).trans_eq (passes_length rt turn).symm

/-- The passes collect only clients that were there when the turn began. -/
theorem lt_of_mem_passes {rt : Runtime} {turn : Turn} {entry : ℕ × String}
    (h : entry ∈ (rt.passes turn).2.1 ++ (rt.passes turn).2.2) : entry.1 < rt.sessions.length := by
  rcases List.mem_append.mp h with h | h
  · exact List.mem_range.mp ((foldl_visits (serviceAt_visits turn.io) (List.range rt.sessions.length)
      (rt.acceptPending turn.pending)).2.subset (List.mem_map_of_mem h))
  · exact List.mem_range.mp ((foldl_visits (flushAt_visits turn.io) (List.range rt.sessions.length)
      (((rt.acceptPending turn.pending).servicePass turn.io rt.sessions.length).1)).2.subset
        (List.mem_map_of_mem h))

/-- The closings of a turn, over the vector the removal pass finds. -/
def Runtime.closings (rt : Runtime) (turn : Turn) :
    Closings (rt.passes turn).1.sessions.length :=
  have hs := foldl_visits (serviceAt_visits turn.io) (List.range rt.sessions.length)
    (rt.acceptPending turn.pending)
  have hf := foldl_visits (flushAt_visits turn.io) (List.range rt.sessions.length)
    (((rt.acceptPending turn.pending).servicePass turn.io rt.sessions.length).1)
  have hlen := length_le_passes rt turn
  { service := (rt.passes turn).2.1
    flush := (rt.passes turn).2.2
    service_sorted := List.pairwise_lt_range.sublist hs.2
    flush_sorted := List.pairwise_lt_range.sublist hf.2
    service_lt := fun _ hi => (List.mem_range.mp (hs.2.subset hi)).trans_le hlen
    flush_lt := fun _ hi => (List.mem_range.mp (hf.2.subset hi)).trans_le hlen }

theorem serveTurn_eq (rt : Runtime) (turn : Turn) :
    rt.serveTurn turn = (rt.passes turn).1.removalPass (rt.closings turn).toClose := rfl

end Passes

section Removal

/-- The first entries of a list whose positions are distinct, after some were seen. -/
theorem foldl_firstSeen (es seen : List (ℕ × String)) (hn : (es.map Prod.fst).Nodup) :
    es.foldl (fun seen entry => if seen.any (·.1 == entry.1) then seen else seen ++ [entry]) seen =
      seen ++ es.filter (fun e => e.1 ∉ seen.map Prod.fst) := by
  induction es generalizing seen with
  | nil => simp
  | cons e es ih =>
    rw [List.map_cons, List.nodup_cons] at hn
    have hany : seen.any (·.1 == e.1) = true ↔ e.1 ∈ seen.map Prod.fst := by
      simp [List.any_eq_true]
    rw [List.foldl_cons, List.filter_cons]
    by_cases h : e.1 ∈ seen.map Prod.fst
    · rw [if_pos (hany.mpr h), ih seen hn.2, if_neg (by simpa using h)]
    · rw [if_neg (mt hany.mp h), ih (seen ++ [e]) hn.2, if_pos (by simpa using h),
        List.append_assoc, List.singleton_append]
      congr 2
      refine List.filter_congr fun e' he' => ?_
      have hne : e'.1 ≠ e.1 := fun he => hn.1 (he ▸ List.mem_map_of_mem he')
      simp [hne]

theorem firstSeen_reverse {n : ℕ} (c : Closings n) :
    (Runtime.firstSeen c.toClose).reverse.map Prod.fst =
      c.flushOnly.reverse ++ (c.service.map Prod.fst).reverse := by
  have hs : Runtime.firstSeen c.service = c.service := by
    have h := foldl_firstSeen c.service [] c.service_sorted.nodup
    simpa [Runtime.firstSeen] using h
  have hf := foldl_firstSeen c.flush c.service c.flush_sorted.nodup
  have hseen : Runtime.firstSeen c.toClose =
      c.service ++ c.flush.filter (fun e => e.1 ∉ c.service.map Prod.fst) := by
    rw [Runtime.firstSeen, Closings.toClose, List.foldl_append]
    rw [Runtime.firstSeen] at hs
    rw [hs, hf]
  rw [hseen, List.map_reverse, List.map_append, List.reverse_append, Closings.flushOnly,
    List.filter_map]
  rfl

theorem removeEach_sessions (rt : Runtime) (is : List ℕ) :
    (rt.removeEach is).map Runtime.sessions = removeAll is rt.sessions := by
  induction is generalizing rt with
  | nil => rfl
  | cons i is ih =>
    rw [Runtime.removeEach, removeAll, Runtime.remove]
    by_cases h : i < rt.sessions.length
    · rw [List.getElem?_eq_getElem h, if_pos h]
      exact ih _
    · rw [List.getElem?_eq_none (Nat.not_lt.mp h), if_neg h]
      rfl

/-- Removing in descending order takes off the ledger what the removed sessions held. -/
theorem removeEach_ledger {rt rt' : Runtime} {is : List ℕ} (hd : is.Pairwise (· > ·))
    (h : rt.removeEach is = some rt') (k : UInt32) :
    k ∈ rt'.device.dev.ledger.held ↔ k ∈ rt.device.dev.ledger.held ∧
      ∀ i ∈ is, ∀ slot, rt.sessions[i]? = some slot → k ∉ heldCodes slot.session := by
  induction is generalizing rt with
  | nil => cases h; simp
  | cons i is ih =>
    obtain ⟨hi, hd⟩ := List.pairwise_cons.mp hd
    rw [Runtime.removeEach, Runtime.remove] at h
    cases hslot : rt.sessions[i]? with
    | none => rw [hslot] at h; cases h
    | some slot =>
      rw [hslot] at h
      have hrest : ∀ j ∈ is, (rt.sessions.eraseIdx i)[j]? = rt.sessions[j]? :=
        fun j hj => List.getElem?_eraseIdx_of_lt (hi j hj)
      have hk := ih hd h
      dsimp only at hk
      rw [hk, List.forall_mem_cons, hslot]
      change k ∈ (rt.device.dev.releaseKeys slot.session.held.elems).1.ledger.held ∧ _ ↔ _
      rw [mem_releaseKeys_held, and_assoc]
      refine and_congr_right fun _ => and_congr ?_ ?_
      · simp
      · exact forall₂_congr fun j hj => by rw [hrest j hj]

end Removal

/-- The removal pass does not panic, removes exactly the sessions whose position is
closed, and takes exactly their keys off the ledger. -/
def ExactRemoval (rt : Runtime) (toClose : List (ℕ × String)) : Prop :=
  ∃ rt', rt.removalPass toClose = some rt' ∧
    rt'.sessions = keep (toClose.map Prod.fst) rt.sessions ∧
    ∀ k, k ∈ rt'.device.dev.ledger.held ↔ k ∈ rt.device.dev.ledger.held ∧
      ∀ i ∈ toClose.map Prod.fst, ∀ slot, rt.sessions[i]? = some slot → k ∉ heldCodes slot.session

section Exact

variable {n : ℕ} {c : Closings n}

theorem mem_toClose_iff {i : ℕ} : i ∈ c.toClose.map Prod.fst ↔
    i ∈ c.flushOnly.reverse ++ (c.service.map Prod.fst).reverse := by
  rw [Closings.toClose, List.map_append, List.mem_append, List.mem_append, List.mem_reverse,
    List.mem_reverse, Closings.flushOnly, List.mem_filter, decide_eq_true_iff]
  tauto

theorem flushOnly_descending : c.flushOnly.reverse.Pairwise (· > ·) :=
  List.pairwise_reverse.mpr (c.flush_sorted.sublist List.filter_sublist)

theorem service_descending : (c.service.map Prod.fst).reverse.Pairwise (· > ·) :=
  List.pairwise_reverse.mpr c.service_sorted

theorem flushOnly_lt : ∀ i ∈ c.flushOnly, i < n :=
  fun i hi => c.flush_lt i (List.mem_filter.mp hi).1

/-- The walk is descending exactly when the closings are ordered. -/
theorem Closings.Ordered.descending (h : c.Ordered) :
    (c.flushOnly.reverse ++ (c.service.map Prod.fst).reverse).Pairwise (· > ·) := by
  refine List.pairwise_append.mpr ⟨flushOnly_descending, service_descending, ?_⟩
  intro f hf s hs
  exact h f (List.mem_reverse.mp hf) s (List.mem_reverse.mp hs)

/-- Otherwise the walk takes a position that the flush pass closed before a larger one
that the service pass closed. -/
theorem smaller_first_of_not_ordered (h : ¬ c.Ordered) :
    ∃ f s ss, f ∈ c.flushOnly.reverse ∧ f < s ∧ (∀ i ∈ ss, i < s) ∧
      (c.service.map Prod.fst).reverse = s :: ss := by
  simp only [Closings.Ordered, not_forall, Nat.not_lt] at h
  obtain ⟨f, hf, s, hs, hle⟩ := h
  have hne : f ≠ s := by
    rintro rfl
    exact (decide_eq_true_iff.mp (List.mem_filter.mp hf).2) hs
  cases hrev : (c.service.map Prod.fst).reverse with
  | nil =>
    rw [List.reverse_eq_nil_iff.mp hrev] at hs
    exact absurd hs List.not_mem_nil
  | cons t ss =>
    have hdesc := service_descending (c := c)
    rw [hrev, List.pairwise_cons] at hdesc
    have hst : s ≤ t := by
      rcases List.mem_cons.mp (hrev ▸ List.mem_reverse.mpr hs) with rfl | hm
      · exact le_rfl
      · exact (hdesc.1 s hm).le
    exact ⟨f, t, ss, List.mem_reverse.mpr hf, by omega, hdesc.1, rfl⟩

end Exact

/-- The kernel gives open sockets distinct descriptors. Under that, the removal is exact
for exactly the ordered closings. -/
theorem removalPass_exact_iff (rt : Runtime) (c : Closings rt.sessions.length)
    (hfd : (rt.sessions.map fun slot => slot.stream.fd).Nodup) :
    ExactRemoval rt c.toClose ↔ c.Ordered := by
  have hkeep : keep (c.toClose.map Prod.fst) rt.sessions =
      keep (c.flushOnly.reverse ++ (c.service.map Prod.fst).reverse) rt.sessions :=
    keepFrom_congr fun i _ _ => mem_toClose_iff
  have hsessions := removeEach_sessions rt
    (c.flushOnly.reverse ++ (c.service.map Prod.fst).reverse)
  unfold ExactRemoval Runtime.removalPass
  rw [firstSeen_reverse, hkeep]
  constructor
  · rintro ⟨rt', hr, hs, -⟩
    by_contra hno
    obtain ⟨f, s, ss, hf, hlt, hss, hrev⟩ := smaller_first_of_not_ordered hno
    rw [hr, Option.map_some, hs, hrev] at hsessions
    exact removeAll_ne_of_smaller_first hfd.of_map flushOnly_descending
      (fun i hi => flushOnly_lt i (List.mem_reverse.mp hi)) hss hf hlt hsessions.symm
  · intro h
    have hlt : ∀ i ∈ c.flushOnly.reverse ++ (c.service.map Prod.fst).reverse,
        i < rt.sessions.length := by
      intro i hi
      rcases List.mem_append.mp hi with hi | hi
      · exact flushOnly_lt i (List.mem_reverse.mp hi)
      · exact c.service_lt i (List.mem_reverse.mp hi)
    rw [removeAll_of_descending h.descending hlt] at hsessions
    obtain ⟨rt', hr, hs⟩ := Option.map_eq_some_iff.mp hsessions
    refine ⟨rt', hr, hs, fun k => ?_⟩
    rw [removeEach_ledger h.descending hr]
    simp only [mem_toClose_iff]

def twoClients : Runtime :=
  ⟨⟨.new (fun _ => none) 16⟩, [.new 5 (.new 16), .new 6 (.new 16)], 8, 16⟩

/-- The first client opens a session without a greeting, the second hangs up. -/
def errorThenHangUp : Turn where
  pending := []
  io i :=
    if i = 0 then
      ⟨some true, .bytes [0x46, 0x4B, 0x30, 0x31, 1, 0, 2], fun _ => true, [.accepted 4096]⟩
    else ⟨some true, .bytes [], fun _ => true, []⟩

/-- The first client hangs up, the second opens a session without a greeting. -/
def hangUpThenError : Turn := { errorThenHangUp with io := fun i => errorThenHangUp.io (1 - i) }

theorem removalPass_exact_hangUpThenError :
    ExactRemoval (twoClients.passes hangUpThenError).1
      (twoClients.closings hangUpThenError).toClose :=
  (removalPass_exact_iff _ _ (by decide)).mpr (by
    intro f hf s hs
    have hf' : f ∈ [1] := hf
    have hs' : s ∈ [0] := hs
    simp_all)

/-- The flush pass closes the first session after the service pass has closed the second,
so the second is removed by a position that no longer exists. -/
theorem errorThenHangUp_panics :
    ¬ ∀ (rt : Runtime) (turn : Turn),
      ((rt.passes turn).1.sessions.map fun slot => slot.stream.fd).Nodup →
        ExactRemoval (rt.passes turn).1 (rt.closings turn).toClose := by
  intro h
  obtain ⟨rt', hr, -⟩ := h twoClients errorThenHangUp (by decide)
  have hp : (twoClients.serveTurn errorThenHangUp).isSome = false := by decide
  rw [serveTurn_eq, hr] at hp
  cases hp

end Ferrokey.Daemon
