import Ferrokey.Core.Stream

/-! # Modifiers the user holds

A modifier can be down because it was injected for a key, or because the user
pressed it. The record of injected modifiers is made at the press of the key and
replayed at its release; by then the user may have taken one of them over.
-/

namespace Ferrokey

open Machine

/-- The calls of a run, each with the events it returned. -/
def history (s : KeyboardState) (calls : List Call) : List (Call × List KeyEvent) :=
  calls.zip ((outputs KeyboardState.step s calls).map eventsOf)

/-- Whether a call is an explicit one on the key. -/
def Call.concerns (key : PhysicalKey) : Call → Bool
  | .press key' _ => key' == key
  | .release key' _ => key' == key
  | .releaseAll => true

def latestCall (key : PhysicalKey) (hist : List (Call × List KeyEvent)) :
    Option (Call × List KeyEvent) :=
  hist.reverse.find? fun entry => entry.1.concerns key

/-- The user holds a modifier: the latest explicit call on it is a press that returned its
`down` event. -/
def UserHolds (key : PhysicalKey) (hist : List (Call × List KeyEvent)) : Prop :=
  key.isModifier = true ∧ ∃ now events, latestCall key hist = some (.press key now, events) ∧
    .down key ∈ events

section

variable (settings : StateSettings) (calls : List Call) (c : Call)

/-- The call after a run lets go of no modifier that the user holds, unless the user asks
for it. -/
def SparesUser : Prop :=
  ∀ key, UserHolds key (history (.new settings) calls) →
    .up key ∈ eventsOf ((run KeyboardState.step (.new settings) calls).step c).2 →
      c = .releaseAll ∨ ∃ now, c = .release key now

/-- If the call after a run releases an ordinary key that is down, then no modifier that
was injected for the key and is still down is held by the user. -/
def NotReclaimed : Prop :=
  ∀ key now, c = .release key now →
    key ∈ (run KeyboardState.step (.new settings) calls).depressed → key.isOrdinary = true →
      ∀ mod ∈ (run KeyboardState.step (.new settings) calls).injectedFor key,
        mod ∈ (run KeyboardState.step (.new settings) calls).depressed →
          ¬ UserHolds mod (history (.new settings) calls)

end

namespace KeyboardState

/-- A call lets go of exactly the keys that are down and that it releases: all of them, or
those that go with a released key. -/
theorem Effect.up_mem_iff {s s' : KeyboardState} {c : Call} {events : List KeyEvent}
    (h : Effect s c s' events) (mod : PhysicalKey) :
    .up mod ∈ events ↔ mod ∈ s.depressed ∧ (c = .releaseAll ∨
      ∃ key now, c = .release key now ∧ key ∈ s.depressed ∧ mod ∈ s.releases key) := by
  cases h with
  | quiet _ hr ha =>
    refine iff_of_false List.not_mem_nil ?_
    rintro ⟨-, hc | ⟨key, now, hc, hd, -⟩⟩
    · exact ha hc
    · exact hr key now hc hd
  | press => simp
  | @release key now _ hd =>
    rw [up_mem_releaseInjected]
    refine and_congr_right fun _ => ⟨fun hm => Or.inr ⟨key, now, rfl, hd, hm⟩, ?_⟩
    rintro (hc | ⟨_, _, hc, -, hm⟩)
    · cases hc
    · cases hc
      exact hm
  | releaseAll _ hm => simp [hm]

end KeyboardState

/-- One call spares what the user holds exactly when it reclaims no injected modifier. -/
theorem sparesUser_iff (settings : StateSettings) (calls : List Call) (c : Call) :
    SparesUser settings calls c ↔ NotReclaimed settings calls c := by
  unfold SparesUser NotReclaimed
  generalize run KeyboardState.step (.new settings) calls = s
  generalize history (.new settings) calls = hist
  have hup := (KeyboardState.step_effect s c).up_mem_iff
  constructor
  · rintro h key now rfl hd hord mod hm hmd hu
    have hrel : mod ∈ s.releases key := by
      rw [KeyboardState.releases, if_pos hord]
      exact List.mem_cons_of_mem _ hm
    rcases h mod hu ((hup mod).mpr ⟨hmd, Or.inr ⟨key, now, rfl, hd, hrel⟩⟩) with hc | ⟨_, hc⟩
    · cases hc
    · cases hc
      simp [PhysicalKey.isOrdinary, hu.1] at hord
  · intro h mod hu hmem
    obtain ⟨hmd, hc | ⟨key, now, rfl, hd, hm⟩⟩ := (hup mod).mp hmem
    · exact Or.inl hc
    · refine Or.inr ⟨now, ?_⟩
      unfold KeyboardState.releases at hm
      split at hm
      next hord =>
        rcases List.mem_cons.mp hm with rfl | hm
        · rfl
        · exact absurd hu (h key now rfl hd hord mod hm hmd)
      next => rw [List.mem_singleton.mp hm]

/-- Throughout a run no modifier that the user holds is let go without the user's release,
exactly when no ordinary key of the run is released while the user holds a modifier that
was injected for it. -/
theorem spares_user_iff (settings : StateSettings) (calls : List Call) :
    (∀ pre c, pre ++ [c] <+: calls → SparesUser settings pre c) ↔
      ∀ pre c, pre ++ [c] <+: calls → NotReclaimed settings pre c :=
  forall₃_congr fun pre c _ => sparesUser_iff settings pre c

/-- Shift is latched, injected for a letter, released and pressed again by the user; then
the letter is released. -/
def reclaimedShift : List Call :=
  [.press .leftShift 0, .release .leftShift 80, .press .a 200, .release .leftShift 300,
    .press .leftShift 400, .release .a 500]

/-- The release of the letter lets go of the shift that the user holds. -/
theorem reclaimedShift_let_go :
    ¬ ∀ pre c, pre ++ [c] <+: reclaimedShift →
      SparesUser ⟨true, 400000000, 16⟩ pre c := by
  intro h
  have hs := h (reclaimedShift.take 5) (.release .a 500) (by decide) .leftShift
    ⟨rfl, 400, [.down .leftShift], by decide, by decide⟩ (by decide)
  revert hs
  simp

end Ferrokey
