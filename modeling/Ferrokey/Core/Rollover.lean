import Ferrokey.Core.Stream

/-! # The rollover cap

The cap on held keys is checked once, before a press adds its injected modifiers
and its key. The number of held keys keeps to the cap exactly when every press of
an ordinary key has room for both.
-/

namespace Ferrokey

open Machine

namespace KeyboardState

/-- A press of an ordinary key that passes the guards has room below the cap for its key
and for the modifiers it injects. A cap at the capacity of the table always has. -/
def RoomToInject (s : KeyboardState) : Call → Prop
  | .press key _ => key ∉ s.depressed → s.heldCount < s.settings.maxHeldKeys →
      key.isOrdinary = true → Ferrokey.maxHeldKeys ≤ s.settings.maxHeldKeys ∨
        s.heldCount + s.injections.length < s.settings.maxHeldKeys
  | _ => True

section

variable {s s' : KeyboardState} {key : PhysicalKey} {c : Call} {events : List KeyEvent}

theorem len_releaseInjected_le (d : KeySet) (keys : List PhysicalKey) :
    (releaseInjected d keys).1.len ≤ d.len := by
  induction keys generalizing d with
  | nil => exact le_rfl
  | cons key keys ih => exact (ih _).trans KeySet.len_remove_le

theorem length_presses (s : KeyboardState) (key : PhysicalKey) : (s.presses key).length =
    if key.isOrdinary = true then s.injections.length + 1 else 1 := by
  unfold presses
  split <;> simp

theorem Effect.heldCount_le (h : Effect s c s' events) (hroom : s.RoomToInject c)
    (hs : s.heldCount ≤ s.settings.maxHeldKeys) : s'.heldCount ≤ s.settings.maxHeldKeys := by
  cases h with
  | quiet => exact hs
  | @press key now _ hk hl _ hd =>
    obtain ⟨hn, hu, -⟩ := presses_spec hk
    rw [heldCount, hd, KeySet.len_insertAll hn hu, length_presses]
    split
    next hord =>
      have hr : Ferrokey.maxHeldKeys ≤ s.settings.maxHeldKeys ∨
          s.depressed.len + s.injections.length < s.settings.maxHeldKeys := hroom hk hl hord
      omega
    next => omega
  | release _ _ hd =>
    rw [heldCount, hd]
    exact (len_releaseInjected_le _ _).trans hs
  | releaseAll _ _ _ hd =>
    rw [heldCount, hd]
    exact Nat.zero_le _

theorem Effect.lt_heldCount (h : Effect s c s' events) (hroom : ¬ s.RoomToInject c) :
    s.settings.maxHeldKeys < s'.heldCount := by
  cases c with
  | release key now => exact absurd trivial hroom
  | releaseAll => exact absurd trivial hroom
  | press key now =>
    simp only [RoomToInject, not_forall, not_or, Nat.not_le, Nat.not_lt] at hroom
    obtain ⟨hk, hl, hord, hcap, hfull⟩ := hroom
    cases h with
    | quiet hq =>
      rcases hq key now rfl with hd | hd
      · exact absurd hd hk
      · exact absurd hl (Nat.not_lt.mpr hd)
    | press _ _ _ hd =>
      obtain ⟨hn, hu, -⟩ := presses_spec hk
      rw [heldCount, hd, KeySet.len_insertAll hn hu, length_presses, if_pos hord]
      rw [heldCount] at hfull
      omega

end

end KeyboardState

/-- The number of held keys stays within the cap throughout a run exactly when every
press of the run has room for what it injects. -/
theorem always_within_cap_iff (settings : StateSettings) (calls : List Call) :
    Always KeyboardState.step (fun s => s.heldCount ≤ settings.maxHeldKeys) (.new settings) calls ↔
      Steps KeyboardState.step KeyboardState.RoomToInject (.new settings) calls := by
  refine always_iff_steps
    (fun s : KeyboardState => s.settings = settings ∧ s.heldCount ≤ settings.maxHeldKeys)
    ⟨rfl, Nat.zero_le _⟩ (fun s hs => hs.2) ?_ ?_ calls
  · rintro s c ⟨rfl, hs⟩ hroom
    have he := KeyboardState.step_effect s c
    exact ⟨he.settings_eq, he.heldCount_le hroom hs⟩
  · rintro s c ⟨rfl, -⟩ hroom
    exact Nat.not_le.mpr ((KeyboardState.step_effect s c).lt_heldCount hroom)

/-- A tap on shift, then a letter. -/
def shiftedLetter : List Call := [.press .leftShift 0, .release .leftShift 80, .press .a 200]

/-- With a cap of one key, the letter and the injected shift are both held. -/
theorem shiftedLetter_exceeds_cap :
    ¬ Always KeyboardState.step (fun s => s.heldCount ≤ 1) (.new ⟨true, 400000000, 1⟩)
      shiftedLetter := by
  intro h
  have hle := h shiftedLetter List.prefix_rfl
  revert hle
  decide

end Ferrokey
