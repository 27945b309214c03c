import Ferrokey.Core.Effect

/-! # The stream of key events

As long as the table of held keys never fills up, the events of any sequence of
calls form a well-formed stream, and the keys it leaves down are exactly the
depressed ones.
-/

namespace Ferrokey

open Machine

def streamOf (s : KeyboardState) (calls : List Call) : List KeyEvent :=
  (outputs KeyboardState.step s calls).flatMap eventsOf

theorem streamOf_concat (s : KeyboardState) (calls : List Call) (c : Call) :
    streamOf s (calls ++ [c]) =
      streamOf s calls ++ eventsOf ((run KeyboardState.step s calls).step c).2 := by
  rw [streamOf, outputs_concat, List.flatMap_append]
  simp [streamOf]

def KeySet.toSet (s : KeySet) : Set PhysicalKey := {key | key ∈ s}

theorem KeySet.mem_toSet {s : KeySet} {key : PhysicalKey} : key ∈ s.toSet ↔ key ∈ s := Iff.rfl

namespace KeyboardState

/-- The events lead from one set of depressed keys to another. -/
def Leads (d : KeySet) (events : List KeyEvent) (d' : KeySet) : Prop :=
  LegalFrom d.toSet (events.map KeyEvent.stroke) ∧
    leaves d.toSet (events.map KeyEvent.stroke) = d'.toSet

section

variable {s s' : KeyboardState} {d : KeySet} {key : PhysicalKey} {c : Call}
  {events : List KeyEvent}

theorem map_down_stroke (keys : List PhysicalKey) :
    (keys.map KeyEvent.down).map KeyEvent.stroke = keys.map .down := by
  rw [List.map_map]
  rfl

theorem map_up_stroke (keys : List PhysicalKey) :
    (keys.map KeyEvent.up).map KeyEvent.stroke = keys.map .up := by
  rw [List.map_map]
  rfl

/-- A press puts down distinct keys that were up. -/
theorem presses_spec (hk : key ∉ s.depressed) :
    (s.presses key).Nodup ∧ (∀ key' ∈ s.presses key, key' ∉ s.depressed) ∧
      (s.presses key).length ≤ ModifierKind.count + 1 := by
  unfold presses
  split
  next hord =>
    have hmod : key.isModifier = false := by
      have h := hord
      simp only [PhysicalKey.isOrdinary, Bool.and_eq_true, Bool.not_eq_true'] at h
      exact h.1
    refine ⟨List.nodup_append.mpr ⟨nodup_injections, List.nodup_singleton key, ?_⟩, ?_, ?_⟩
    · rintro key' hk' _ hmem rfl
      rw [List.mem_singleton.mp hmem] at hk'
      simp [(mem_wanted hk').1] at hmod
    · intro key' hk'
      rcases List.mem_append.mp hk' with hk' | hk'
      · exact (mem_wanted hk').2
      · exact List.mem_singleton.mp hk' ▸ hk
    · simpa using length_injections_le
  next => simp [hk]

theorem leads_presses {keys : List PhysicalKey} (hn : keys.Nodup) (hu : ∀ key ∈ keys, key ∉ d)
    (hl : d.len + keys.length ≤ Ferrokey.maxHeldKeys) :
    Leads d (keys.map .down) (d.insertAll keys) := by
  rw [Leads, map_down_stroke]
  obtain ⟨hlegal, hleaves⟩ := downs_legal hn hu
  refine ⟨hlegal, Set.ext fun key => ?_⟩
  exact (hleaves key).trans (KeySet.mem_insertAll hl).symm

theorem leads_releaseInjected (d : KeySet) (keys : List PhysicalKey) :
    Leads d (releaseInjected d keys).2 (releaseInjected d keys).1 := by
  induction keys generalizing d with
  | nil => exact ⟨trivial, rfl⟩
  | cons key keys ih =>
    rw [releaseInjected]
    by_cases hk : key ∈ d
    · have hset : d.toSet \ {key} = (d.remove key).1.toSet := by
        ext key'
        exact and_comm.trans KeySet.mem_remove.symm
      dsimp only
      rw [if_pos (KeySet.remove_snd.mpr hk)]
      refine ⟨⟨hk, ?_⟩, ?_⟩
      · change LegalFrom (d.toSet \ {key}) _
        rw [hset]
        exact (ih _).1
      · rw [List.map_cons, leaves_cons]
        change leaves (d.toSet \ {key}) _ = _
        rw [hset]
        exact (ih _).2
    · have hset : (d.remove key).1.toSet = d.toSet := by
        ext key'
        refine KeySet.mem_remove.trans ⟨And.right, fun hk' => ⟨?_, hk'⟩⟩
        rintro rfl
        exact hk hk'
      dsimp only
      rw [if_neg (mt KeySet.remove_snd.mp hk), Leads, ← hset]
      exact ih _

/-- The table of held keys has room for everything that the call presses. -/
def HasRoom (s : KeyboardState) : Call → Prop
  | .press key _ => key ∉ s.depressed → s.depressed.len < s.settings.maxHeldKeys →
      s.depressed.len + (s.presses key).length ≤ Ferrokey.maxHeldKeys
  | _ => True

theorem hasRoom_of_settings
    (h : s.settings.maxHeldKeys + ModifierKind.count ≤ Ferrokey.maxHeldKeys) (c : Call) :
    s.HasRoom c := by
  cases c with
  | press key now =>
    intro hk hl
    obtain ⟨-, -, hlen⟩ := presses_spec hk
    omega
  | release key now => trivial
  | releaseAll => trivial

/-- Every call delivers events that lead from the old depressed keys to the new ones, as
long as they have room. -/
theorem Effect.leads (h : Effect s c s' events) (hroom : s.HasRoom c) :
    Leads s.depressed events s'.depressed := by
  cases h with
  | quiet => exact ⟨trivial, rfl⟩
  | press hk hl _ hd =>
    obtain ⟨hn, hu, -⟩ := presses_spec hk
    rw [hd]
    exact leads_presses hn hu (hroom hk hl)
  | release _ _ hd =>
    rw [hd]
    exact leads_releaseInjected _ _
  | @releaseAll _ keys hn hm _ hd =>
    rw [hd, Leads, map_up_stroke]
    have hdown : ∀ key ∈ keys, key ∈ s.depressed.toSet := fun key hk => (hm key).mp hk
    obtain ⟨hlegal, hleaves⟩ := ups_legal hn hdown
    refine ⟨hlegal, Set.ext fun key => ?_⟩
    rw [hleaves key, hm key]
    exact iff_of_false (fun h => h.2 h.1) KeySet.mem_new

theorem Effect.settings_eq (h : Effect s c s' events) : s'.settings = s.settings := by
  cases h with
  | quiet => rfl
  | press _ _ hs => exact hs
  | release _ hs => exact hs
  | releaseAll _ _ hs => exact hs

end

theorem run_settings (s : KeyboardState) (calls : List Call) :
    (run step s calls).settings = s.settings :=
  run_invariant (fun t => t.settings = s.settings) rfl
    (fun t c ht => (step_effect t c).settings_eq.trans ht) calls

theorem step_error {s : KeyboardState} {c : Call} {e : StateError} (h : (s.step c).2 = .error e) :
    (s.step c).1 = s := by
  cases c with
  | releaseAll => cases h
  | release key now =>
    simp only [step, release] at h
    split at h <;> cases h
  | press key now =>
    simp only [step, press] at h ⊢
    split at h
    · cases h
    next hd =>
    split at h
    next hl => rw [if_neg hd, if_pos hl]
    next => cases h

theorem steps_hasRoom {s : KeyboardState}
    (h : s.settings.maxHeldKeys + ModifierKind.count ≤ Ferrokey.maxHeldKeys) (calls : List Call) :
    Steps step HasRoom s calls := by
  intro pre c _
  exact hasRoom_of_settings (by rwa [run_settings]) c

/-- As long as the calls of a run have room, its events lead from the depressed keys before
it to those after it. -/
theorem leads_of_run {s : KeyboardState} {calls : List Call} (h : Steps step HasRoom s calls) :
    Leads s.depressed (streamOf s calls) (run step s calls).depressed := by
  induction calls generalizing s with
  | nil => exact ⟨trivial, rfl⟩
  | cons c calls ih =>
    obtain ⟨hc, hrest⟩ := steps_cons_iff.mp h
    obtain ⟨hlegal, hleaves⟩ := (step_effect s c).leads hc
    obtain ⟨hlegal', hleaves'⟩ := ih hrest
    have hcons : streamOf s (c :: calls) =
        eventsOf (s.step c).2 ++ streamOf (s.step c).1 calls := rfl
    rw [Leads, hcons, List.map_append, legalFrom_append, leaves_append, hleaves]
    exact ⟨⟨hlegal, hlegal'⟩, hleaves'⟩

end KeyboardState

/-- With room for six injected modifiers above the cap, the events of every sequence of
calls form a well-formed stream that leaves exactly the depressed keys down, and a call
that reports an error changes nothing. -/
theorem stream_of_run {settings : StateSettings} (h : settings.maxHeldKeys + 6 ≤ maxHeldKeys)
    (calls : List Call) :
    let s := run KeyboardState.step (.new settings) calls
    WellFormed ((streamOf (.new settings) calls).map KeyEvent.stroke) ∧
      leftDown ((streamOf (.new settings) calls).map KeyEvent.stroke) = s.depressed.toSet ∧
      ∀ c e, (s.step c).2 = .error e → (s.step c).1 = s := by
  intro s
  refine and_assoc.mp ⟨?_, fun c e he => KeyboardState.step_error he⟩
  induction calls using List.reverseRecOn with
  | nil => exact ⟨trivial, Set.ext fun key => iff_of_false id KeySet.mem_new⟩
  | append_singleton calls c ih =>
    obtain ⟨hwf, hdown⟩ := ih
    have hs := KeyboardState.run_settings (.new settings) calls
    obtain ⟨hlegal, hleaves⟩ :=
      (KeyboardState.step_effect (run KeyboardState.step (.new settings) calls) c).leads
        (KeyboardState.hasRoom_of_settings (by rw [hs]; exact h) c)
    rw [streamOf_concat, List.map_append, wellFormed_append_iff, leftDown_append, hdown]
    refine ⟨⟨hwf, hlegal⟩, hleaves.trans ?_⟩
    simp [s]

theorem stream_of_run_latched_shift :
    (16 + 6 ≤ maxHeldKeys) ∧
      WellFormed ((streamOf (.new ⟨true, 400000000, 16⟩)
        [.press .leftShift 0, .release .leftShift 80, .press .a 200, .release .a 300]).map
          KeyEvent.stroke) :=
  ⟨by decide, (stream_of_run (by decide) _).1⟩

end Ferrokey
