import Ferrokey.Core.Driver

/-! # Repeated keys are depressed

The repeat engine is told about the key of an action only. When the release of a
key takes an injected modifier with it, a modifier that the layout makes
repeatable stays tracked although it is up. Apart from that, the tracked keys are
always depressed.
-/

namespace Ferrokey

open Machine

namespace KeyboardEngine

/-- Every tracked key is depressed, and so is every key that a tick would repeat now. -/
def RepeatsDepressed (e : KeyboardEngine) : Prop :=
  (∀ key ∈ e.repeats.heldKeys, key ∈ e.state.depressed) ∧
    ∀ now, ∀ key ∈ (e.repeats.tick now).2, key ∈ e.state.depressed

/-- A release takes no tracked key with it. -/
def CascadeUntracked (e : KeyboardEngine) (c : DriverCall) : Prop :=
  ∀ s key, e.releaseStart c = some (s, key) → key ∈ s.depressed →
    ∀ mod ∈ s.releases key, mod ≠ key → mod ∉ e.repeats.heldKeys

structure TrackedInv (e : KeyboardEngine) : Prop where
  nodup : e.repeats.heldKeys.Nodup
  depressed : ∀ key ∈ e.repeats.heldKeys, key ∈ e.state.depressed

variable {e : KeyboardEngine} {c : DriverCall}

theorem TrackedInv.repeatsDepressed (h : e.TrackedInv) : e.RepeatsDepressed :=
  ⟨h.depressed, fun _ key hk => h.depressed key (RepeatEngine.mem_of_mem_tick hk)⟩

theorem step_releaseStart {s : KeyboardState} {key : PhysicalKey}
    (h : e.releaseStart c = some (s, key)) :
    (∃ later, (e.step c).1.state = (s.release key later).1) ∧
      (e.step c).1.repeats.heldKeys = e.repeats.heldKeys.erase key ∧
      ∀ key ∈ e.state.depressed, key ∈ s.depressed := by
  have hstate := (step_eq e c).1
  match c, h with
  | .action .up _ now, rfl =>
    exact ⟨⟨now, hstate⟩, RepeatEngine.heldKeys_keyUp, fun _ h => h⟩
  | .action .tap _ now, rfl =>
    refine ⟨⟨_, hstate⟩, ?_, fun _ h => KeyboardState.mem_press_of_mem h⟩
    rw [← RepeatEngine.heldKeys_keyUp]
    simp only [step, act]
    split
    · rfl
    · split <;> rfl

/-- A release that takes a tracked key with it leaves that key tracked. -/
theorem cascadeUntracked_of_step (hp : (e.step c).1.RepeatsDepressed) : e.CascadeUntracked c := by
  intro s key hs hk mod hm hne htr
  obtain ⟨⟨later, hstate⟩, hkeys, -⟩ := step_releaseStart hs
  have hstill : mod ∈ (e.step c).1.repeats.heldKeys := by
    rw [hkeys]
    exact (List.mem_erase_of_ne hne).mpr htr
  have hup := hp.1 mod hstill
  rw [hstate, KeyboardState.mem_release] at hup
  exact hup.2 hk hm

theorem TrackedInv.step_of_releaseStart (h : e.TrackedInv) (hc : e.CascadeUntracked c)
    {s : KeyboardState} {key : PhysicalKey} (hs : e.releaseStart c = some (s, key)) :
    (e.step c).1.TrackedInv := by
  obtain ⟨⟨later, hstate⟩, hkeys, hgrow⟩ := step_releaseStart hs
  refine ⟨hkeys ▸ h.nodup.erase key, fun mod hm => ?_⟩
  rw [hkeys, h.nodup.mem_erase_iff] at hm
  rw [hstate, KeyboardState.mem_release]
  exact ⟨hgrow mod (h.depressed mod hm.2), fun hk hrel => hc s key hs hk mod hrel hm.1 hm.2⟩

theorem TrackedInv.step_down (h : e.TrackedInv) (key : PhysicalKey) (now : ℕ) :
    (e.step (.action .down key now)).1.TrackedInv := by
  have hgrow : ∀ key' ∈ e.state.depressed, key' ∈ (e.state.press key now).1.depressed :=
    fun _ hk => KeyboardState.mem_press_of_mem hk
  simp only [KeyboardEngine.step, act]
  cases hp : e.state.press key now with
  | mk state result =>
    rw [hp] at hgrow
    cases result with
    | error err => exact ⟨h.nodup, fun key' hk => hgrow key' (h.depressed key' hk)⟩
    | ok events =>
      by_cases hd : state.depressed.contains key = true
      · simp only [hd, if_true]
        refine ⟨RepeatEngine.nodup_keyDown h.nodup _, fun key' hk => ?_⟩
        rcases RepeatEngine.mem_heldKeys_keyDown hk with rfl | hk
        · exact KeySet.contains_iff.mp hd
        · exact hgrow key' (h.depressed key' hk)
      · simp only [hd]
        exact ⟨h.nodup, fun key' hk => hgrow key' (h.depressed key' hk)⟩

theorem TrackedInv.step (h : e.TrackedInv) (hc : e.CascadeUntracked c) :
    (e.step c).1.TrackedInv := by
  cases c with
  | action action key now =>
    cases action with
    | down => exact h.step_down key now
    | up => exact h.step_of_releaseStart hc rfl
    | tap => exact h.step_of_releaseStart hc rfl
    | releaseAll => exact ⟨by simp [KeyboardEngine.step, act], by simp [KeyboardEngine.step, act]⟩
  | tickRepeat now =>
    refine ⟨?_, fun key hk => ?_⟩
    · simpa [KeyboardEngine.step] using h.nodup
    · exact h.depressed key (by simpa [KeyboardEngine.step] using hk)
  | emergencyRelease => exact ⟨by simp [KeyboardEngine.step], by simp [KeyboardEngine.step]⟩

/-- What is delivered is possible while the depressed keys are down. -/
theorem TrackedInv.legal_step (h : e.TrackedInv) (hr : e.HasRoom c) :
    LegalFrom e.state.depressed.toSet (strokesOf (e.step c).2) := by
  obtain ⟨hlegal, hleaves⟩ := KeyboardState.leads_of_run hr
  rw [(step_eq e c).2, legalFrom_append, hleaves]
  refine ⟨hlegal, agains_legal fun key hk => ?_⟩
  cases c with
  | tickRepeat now => exact h.depressed key (RepeatEngine.mem_of_mem_tick hk)
  | action action key' now => cases hk
  | emergencyRelease => cases hk

end KeyboardEngine

section

variable {σ : Type} [KeySink σ]

/-- With any sink, the repeated keys are depressed throughout a run exactly when no release
of the run takes a tracked key with it. -/
theorem always_repeatsDepressed_iff (settings : StateSettings) (repeatSettings : RepeatSettings)
    (layout : Layout) (sink : σ) (calls : List DriverCall) :
    Always KeyboardDriver.step (fun d => d.RepeatsDepressed)
        (.new settings repeatSettings layout sink) calls ↔
      Steps KeyboardDriver.step (fun d c => d.CascadeUntracked c)
        (.new settings repeatSettings layout sink) calls := by
  apply always_iff_steps (fun d => d.TrackedInv)
  · exact ⟨by simp [KeyboardDriver.new, KeyboardEngine.new],
      by simp [KeyboardDriver.new, KeyboardEngine.new]⟩
  · exact fun d h => h.repeatsDepressed
  · intro d c h hc
    rw [KeyboardDriver.step_engine]
    exact h.step hc
  · intro d c h hc hp
    rw [KeyboardDriver.step_engine] at hp
    exact hc (KeyboardEngine.cascadeUntracked_of_step hp)

end

/-- A layout that defines the left shift key and leaves it repeatable. -/
def shiftRepeats : Layout := ⟨fun key => if key = .leftShift then some ⟨true⟩ else none⟩

/-- A latched shift is injected for a letter and pressed by the user while it is down; then
the letter is released. -/
def strayShift : List DriverCall :=
  [.action .tap .leftShift 0, .action .down .a 200, .action .down .leftShift 300,
    .action .up .a 400]

/-- Shift is up and still repeated. -/
theorem strayShift_repeated :
    ¬ Always KeyboardDriver.step (fun d : KeyboardDriver Recorder => d.RepeatsDepressed)
      (.new ⟨true, 400000000, 16⟩ ⟨true, 500000000, 30000000⟩ shiftRepeats ⟨[]⟩) strayShift :=
  fun h => absurd ((h strayShift List.prefix_rfl).2 900 .leftShift (by decide)) (by decide)

end Ferrokey
