import Ferrokey.Daemon.Lifecycle

/-! # One client cannot touch the keys of another

All clients write to one device. In every run in which no press and no release is lost, what
is written on behalf of a session is about keys that no other session holds, and it releases
and repeats only keys of that session.
-/

namespace Ferrokey.Daemon

open Uinput Protocol Machine Collections

/-- The position of the session that an event is about. -/
def Event.actor : Event → Option ℕ
  | .connect _ => none
  | .message i _ _ | .disconnect i => some i

namespace Broker

/-- A step writes only for its session, about keys that no other one holds, and a key that
does not go down is one of its own. -/
def Isolated (b : Broker) (e : Event) : Prop :=
  ∃ events, (b.step e).1.log = b.log ++ events ∧ ∀ event ∈ events,
    ∃ i s, e.actor = some i ∧ b.sessions[i]? = some s ∧
      (event.value = 1 ∨ event.code ∈ s.held) ∧
      ∀ j t, j ≠ i → b.sessions[j]? = some t → event.code ∉ t.held

variable {b : Broker}

/-- The sessions own disjoint keys. -/
theorem held_disjoint (p : Owned b.device.dev b.sessions) {i j : ℕ} {s t : ClientSession}
    (hs : b.sessions[i]? = some s) (ht : b.sessions[j]? = some t) (hne : j ≠ i) {code : UInt16}
    (hcode : code ∈ s.held) : code ∉ t.held := by
  intro hm
  obtain ⟨pre, post, hsplit, -, herase⟩ := getElem?_split hs
  have hother : t ∈ pre ++ post := by
    rw [← herase]
    exact List.mem_eraseIdx_iff_getElem?.mpr ⟨j, hne, ht⟩
  rw [hsplit, Owned, List.map_append, List.map_cons] at p
  have hdisjoint := p.not_mem_other (toUInt32_mem_heldCodes.mpr hcode) (heldCodes t)
    (by rw [← List.map_append]; exact List.mem_map_of_mem hother)
  exact hdisjoint (toUInt32_mem_heldCodes.mpr hm)

/-- Releases of keys that a session holds are isolated. -/
theorem isolated_releases (p : Owned b.device.dev b.sessions) {i : ℕ} {s : ClientSession}
    (hs : b.sessions[i]? = some s) {e : Event} (he : e.actor = some i)
    (hd : (b.step e).1.device.dev = (b.device.dev.releaseKeys s.held.elems).1) : Isolated b e := by
  obtain ⟨released, hlog, hsub⟩ := b.device.dev.releaseKeys_writes s.held.elems
  refine ⟨_, (congrArg (fun d : UinputDevice => d.fd.log) hd).trans hlog, ?_⟩
  intro event hevent
  obtain ⟨code, hcode, rfl⟩ := List.mem_map.mp hevent
  exact ⟨i, s, he, hs, Or.inr (hsub hcode),
    fun j t hne ht => held_disjoint p hs ht hne (hsub hcode)⟩

/-- As long as the sessions own the ledger, a step is isolated. -/
theorem step_isolated (p : Owned b.device.dev b.sessions) (e : Event) : Isolated b e := by
  have hquiet : (b.step e).1.log = b.log → Isolated b e :=
    fun h => ⟨[], h.trans (List.append_nil _).symm, fun _ hm => absurd hm List.not_mem_nil⟩
  cases e with
  | connect n => exact hquiet rfl
  | disconnect i =>
    cases hi : b.sessions[i]? with
    | none => exact hquiet (congrArg log (step_absent hi false .ok).2)
    | some s => exact isolated_releases p hi rfl (by rw [step_disconnect hi])
  | message i allowed msg =>
    cases hi : b.sessions[i]? with
    | none => exact hquiet (congrArg log (step_absent hi allowed msg).1)
    | some s =>
      obtain ⟨s', d', he, hs⟩ := step_message hi allowed msg
      have hone : ∀ event, d'.fd.log = b.log ++ [event] →
          (event.value = 1 ∨ event.code ∈ s.held) →
          (∀ j t, j ≠ i → b.sessions[j]? = some t → event.code ∉ t.held) →
          Isolated b (.message i allowed msg) := by
        intro event hlog hown hother
        refine ⟨[event], by rw [hs]; exact hlog, ?_⟩
        intro event' hm
        obtain rfl := List.mem_singleton.mp hm
        exact ⟨i, s, rfl, hi, hown, hother⟩
      cases he with
      | quiet => exact hquiet (by rw [hs]; rfl)
      | pressLost => exact hquiet (by rw [hs]; rfl)
      | releaseLost => exact hquiet (by rw [hs]; rfl)
      | againLost => exact hquiet (by rw [hs]; rfl)
      | @press code ha hr hw =>
        -- A key that goes down is on nobody's hands, since it is not on the ledger.
        refine hone ⟨code, 1⟩ rfl (Or.inl rfl) fun j t _ ht hm => hr.2.2.2.2.1 ?_
        exact p.agrees.2 t (List.mem_of_getElem? ht) _ (toUInt32_mem_heldCodes.mpr hm)
      | @release code ha hr hw =>
        exact hone ⟨code, 0⟩ rfl (Or.inr hr.2.2.1)
          fun j t hne ht => held_disjoint p hi ht hne hr.2.2.1
      | @again code ha hr hw =>
        exact hone ⟨code, 2⟩ rfl (Or.inr hr.2.2)
          fun j t hne ht => held_disjoint p hi ht hne hr.2.2
      | releaseAll => exact isolated_releases p hi rfl (by rw [hs])

theorem isolated_of_steps {answer : ℕ → Option String} {maxHeldKeys : ℕ} {events : List Event}
    (h : Steps Broker.step (fun b e => ¬ WriteLost b e) (.new answer maxHeldKeys) events) :
    Steps Broker.step Isolated (.new answer maxHeldKeys) events := by
  intro pre e hp
  have hpre := h.of_prefix ((List.prefix_append pre [e]).trans hp)
  have howned := run_of_steps (fun b => Owned b.device.dev b.sessions)
    (new_owned answer maxHeldKeys) (fun _ _ p hl => step_owned p hl) hpre
  exact step_isolated howned e

end Broker

/-- Every run of the serve loop is an interleaving of its clients' messages in which, unless a
press or a release is lost, no client presses, releases or repeats a key that another one
holds. -/
theorem serveLoop_isolated {answer : ℕ → Option String} {maxConnections maxHeldKeys : ℕ}
    {turns : List Turn} {rt : Runtime}
    (h : (Runtime.start answer maxConnections maxHeldKeys).serveLoop turns = some rt) :
    ∃ events, run Broker.step (.new answer maxHeldKeys) events = rt.broker ∧
      (Steps Broker.step (fun b e => ¬ WriteLost b e) (.new answer maxHeldKeys) events →
        Steps Broker.step Broker.Isolated (.new answer maxHeldKeys) events) := by
  obtain ⟨events, hrun⟩ := (leads_inductive _).serveLoop (.refl _) h
  exact ⟨events, hrun, Broker.isolated_of_steps⟩

theorem serveLoop_isolated_acceptAndPress :
    ∃ rt events, (Runtime.start (fun _ => none) 1 16).serveLoop acceptAndPress = some rt ∧
      run Broker.step (.new (fun _ => none) 16) events = rt.broker ∧
      (Steps Broker.step (fun b e => ¬ WriteLost b e) (.new (fun _ => none) 16) events →
        Steps Broker.step Broker.Isolated (.new (fun _ => none) 16) events) := by
  have hloop : ((Runtime.start (fun _ => none) 1 16).serveLoop acceptAndPress).isSome := by decide
  obtain ⟨rt, hrt⟩ := Option.isSome_iff_exists.mp hloop
  obtain ⟨events, hrun, hisolated⟩ := serveLoop_isolated hrt
  exact ⟨rt, events, hrt, hrun, hisolated⟩

end Ferrokey.Daemon
