import Ferrokey.Core.Records

/-! # Typing text

Text is typed character by character: the modifiers that a character needs are pressed, its key
is tapped, and the modifiers are released again. The first error ends the call where it stands,
also between the press of a modifier and its release.
-/

namespace Ferrokey

def DriverError.display : DriverError → String
  | .state e => "keyboard state machine error: " ++ e.display
  | .sink e => "sink error: " ++ e.text

namespace App

open Machine

inductive TextError where
  | unmappable (c : Char)
  | backend (text : String)
  deriving DecidableEq, Repr

variable {σ ρ : Type} [KeySink σ]

/-- Carry out an action with one key after the other, up to the first error. -/
def actAll (action : KeyAction) (now : ℕ) (d : KeyboardDriver σ) :
    List PhysicalKey → KeyboardDriver σ × Except DriverError Unit
  | [] => (d, .ok ())
  | key :: keys =>
    match d.handleAction action key now with
    | (d, .ok ()) => actAll action now d keys
    | (d, .error e) => (d, .error e)

/-- The physical keys of the modifiers that a character needs. -/
def extraKeys (extra : ModifierSet) : List PhysicalKey := extra.iter.map ModifierKind.preferredKey

/-- Press the modifiers, tap the key and release the modifiers in reverse. -/
def typeChord (d : KeyboardDriver σ) (key : PhysicalKey) (extra : ModifierSet) (now : ℕ) :
    KeyboardDriver σ × Except DriverError Unit :=
  match actAll .down now d (extraKeys extra) with
  | (d, .error e) => (d, .error e)
  | (d, .ok ()) =>
    match d.handleAction .tap key now with
    | (d, .error e) => (d, .error e)
    | (d, .ok ()) => actAll .up now d (extraKeys extra).reverse

/-- Type a text. The resolver is asked for every character in turn and may remember what it was
asked. -/
def typeText (resolve : ρ → Char → ρ × Option (PhysicalKey × ModifierSet)) (now : ℕ)
    (d : KeyboardDriver σ) (r : ρ) : List Char → KeyboardDriver σ × ρ × Except TextError Unit
  | [] => (d, r, .ok ())
  | c :: cs =>
    match resolve r c with
    | (r, none) => (d, r, .error (.unmappable c))
    | (r, some (key, extra)) =>
      match typeChord d key extra now with
      | (d, .error e) => (d, r, .error (.backend e.display))
      | (d, .ok ()) => typeText resolve now d r cs

/-! ### Pressing the modifiers -/

/-- Of some modifiers those that are pressed anew before the cap is reached. -/
def engagedNew (cap : ℕ) (held mods : List PhysicalKey) : List PhysicalKey :=
  (mods.filter fun mod => mod ∉ held).take (cap - held.length)

theorem mem_engagedNew_cons {cap : ℕ} {held held' mods : List PhysicalKey} {mod : PhysicalKey}
    (hmod : mod ∉ held) (hlt : held.length < cap) (hnew : mod ∉ mods)
    (hmem : ∀ key, key ∈ held' ↔ key = mod ∨ key ∈ held)
    (hlen : held'.length = held.length + 1) (key : PhysicalKey) :
    key ∈ engagedNew cap held (mod :: mods) ↔ key = mod ∨ key ∈ engagedNew cap held' mods := by
  have hfilter : mods.filter (fun mod => mod ∉ held') = mods.filter fun mod => mod ∉ held := by
    refine List.filter_congr fun key hk => ?_
    have hne : key ≠ mod := fun h => hnew (h ▸ hk)
    simp [hmem, hne]
  obtain ⟨n, hn⟩ : ∃ n, cap - held.length = n + 1 := ⟨cap - held.length - 1, by omega⟩
  have hn' : cap - held'.length = n := by omega
  rw [engagedNew, engagedNew, hn, hn', hfilter, List.filter_cons_of_pos (by simpa using hmod),
    List.take_succ_cons, List.mem_cons]

/-- What pressing some modifiers comes to: they are down, up to the first one that the cap
refuses, and nothing else that matters has changed. -/
structure Engaged (s s' : KeyboardState) (mods : List PhysicalKey) : Prop where
  mem : ∀ key, key ∈ s'.depressed ↔
    key ∈ s.depressed ∨ key ∈ engagedNew s.settings.maxHeldKeys s.depressed.keys mods
  tidy : s'.Tidy
  settings : s'.settings = s.settings
  records : s'.injectedMods = s.injectedMods

section

variable {s s' : KeyboardState} {mod : PhysicalKey} {mods : List PhysicalKey} {now : ℕ}

theorem Engaged.of_full (h : s.Tidy) (hfull : s.settings.maxHeldKeys ≤ s.depressed.len) :
    Engaged s s mods := by
  have hnone : engagedNew s.settings.maxHeldKeys s.depressed.keys mods = [] := by
    rw [engagedNew, KeySet.length_keys, Nat.sub_eq_zero_of_le hfull, List.take_zero]
  exact ⟨by simp [hnone], h, rfl, rfl⟩

theorem Engaged.cons_held (hd : mod ∈ s.depressed) (h : Engaged s s' mods) :
    Engaged s s' (mod :: mods) := by
  have hskip : engagedNew s.settings.maxHeldKeys s.depressed.keys (mod :: mods) =
      engagedNew s.settings.maxHeldKeys s.depressed.keys mods := by
    rw [engagedNew, List.filter_cons_of_neg (by simpa [← KeySet.mem_def] using hd), engagedNew]
  exact ⟨by rw [hskip]; exact h.mem, h.tidy, h.settings, h.records⟩

theorem Engaged.cons_pressed (hcap : s.Capped) (hmod : mod.isModifier = true)
    (hd : mod ∉ s.depressed) (hlt : s.depressed.len < s.settings.maxHeldKeys) (hnew : mod ∉ mods)
    (h : Engaged (s.press mod now).1 s' mods) : Engaged s s' (mod :: mods) := by
  obtain ⟨kind, hkind⟩ := PhysicalKey.isModifier_iff.mp hmod
  have hroom : s.depressed.len < maxHeldKeys :=
    lt_of_lt_of_le hlt (le_trans (Nat.le_add_right _ _) hcap)
  rw [KeyboardState.press_modifier hd hlt now hkind] at h
  have hdown : ∀ key, key ∈ (s.depressed.insert mod).keys ↔ key = mod ∨ key ∈ s.depressed.keys :=
    fun key => KeySet.mem_insert hroom
  have hlen : (s.depressed.insert mod).keys.length = s.depressed.keys.length + 1 := by
    rw [KeySet.length_keys, KeySet.length_keys, KeySet.len_insert hroom hd]
  refine ⟨fun key => ?_, h.tidy, h.settings, h.records⟩
  have hrest : key ∈ s'.depressed ↔ (key = mod ∨ key ∈ s.depressed) ∨
      key ∈ engagedNew s.settings.maxHeldKeys (s.depressed.insert mod).keys mods :=
    (h.mem key).trans (or_congr_left (KeySet.mem_insert hroom))
  rw [hrest, mem_engagedNew_cons (mt KeySet.mem_def.mpr hd) (by rwa [KeySet.length_keys]) hnew
    hdown hlen, or_assoc, or_left_comm]

end

variable {d d' : KeyboardDriver σ} {key mod : PhysicalKey} {extra : ModifierSet} {now : ℕ}
  {mods : List PhysicalKey}

/-- Unless the sink fails, the modifiers are engaged. If a press is refused, the cap is reached. -/
theorem engaged_actAll (now : ℕ) (htidy : d.state.Tidy) (hcap : d.state.Capped)
    (hmods : ∀ mod ∈ mods, mod.isModifier = true) (hn : mods.Nodup)
    (hsink : ∀ e, (actAll .down now d mods).2 ≠ .error (.sink e)) :
    Engaged d.state (actAll .down now d mods).1.state mods ∧
      ∀ e, (actAll .down now d mods).2 = .error (.state e) →
        d.state.settings.maxHeldKeys ≤ (actAll .down now d mods).1.state.depressed.len := by
  induction mods generalizing d with
  | nil => exact ⟨⟨by simp [actAll, engagedNew], htidy, rfl, rfl⟩, by simp [actAll]⟩
  | cons mod mods ih =>
    obtain ⟨hmod, hmods⟩ := List.forall_mem_cons.mp hmods
    obtain ⟨hnew, hn⟩ := List.nodup_cons.mp hn
    have hstate := (KeyboardDriver.step_down d mod now).1
    have herror : ∀ e, (d.step (.action .down mod now)).2 = .error (.state e) ↔
        (d.state.press mod now).2 = .error e := fun e => d.step_down_error_iff mod now
    have hact : actAll .down now d (mod :: mods) =
        match d.step (.action .down mod now) with
        | (d, .ok ()) => actAll .down now d mods
        | (d, .error e) => (d, .error e) := rfl
    rw [hact] at hsink ⊢
    cases hstep : d.step (.action .down mod now) with
    | mk d₁ result =>
      rw [hstep] at hstate herror hsink
      cases result with
      | error e =>
        cases e with
        | sink e => exact absurd rfl (hsink e)
        | state e =>
          obtain ⟨hup, hfull, -⟩ := KeyboardState.press_error_iff.mp ((herror e).mp rfl)
          rw [KeyboardState.press_full hup hfull] at hstate
          have hsame : d₁.state = d.state := hstate
          change Engaged d.state d₁.state (mod :: mods) ∧
            ∀ e', _ → d.state.settings.maxHeldKeys ≤ d₁.state.depressed.len
          rw [hsame]
          exact ⟨.of_full htidy hfull, fun e' _ => hfull⟩
      | ok u =>
        have hpress : d₁.state = (d.state.press mod now).1 := hstate
        have htidy₁ : d₁.state.Tidy := hpress ▸ htidy.press hcap mod now
        have hsettings : d₁.state.settings = d.state.settings := by
          rw [hpress, KeyboardState.press_settings]
        obtain ⟨hengaged, hfull⟩ := ih htidy₁ (hcap.of_settings hsettings) hmods hn hsink
        rw [hsettings] at hfull
        refine ⟨?_, hfull⟩
        by_cases hd : mod ∈ d.state.depressed
        · have hsame : d₁.state = d.state := by rw [hpress, KeyboardState.press_held hd]
          exact .cons_held hd (hsame ▸ hengaged)
        · have hlt : d.state.depressed.len < d.state.settings.maxHeldKeys := by
            by_contra hfull
            have hrefused := (herror _).mpr
              (KeyboardState.press_error_iff.mpr ⟨hd, Nat.le_of_not_lt hfull, rfl⟩)
            cases hrefused
          exact .cons_pressed hcap hmod hd hlt hnew (hpress ▸ hengaged)

/-! ### Releasing the modifiers -/

/-- Releases of modifiers only let go of them, unless the sink fails. -/
theorem actAll_up (now : ℕ) (htidy : d.state.Tidy) (hmods : ∀ mod ∈ mods, mod.isModifier = true) :
    (∀ e, (actAll .up now d mods).2 ≠ .error (.state e)) ∧
      ((actAll .up now d mods).2 = .ok () →
        (∀ key, key ∈ (actAll .up now d mods).1.state.depressed ↔
          key ∈ d.state.depressed ∧ key ∉ mods) ∧
        (actAll .up now d mods).1.state.Tidy ∧
        (actAll .up now d mods).1.state.settings = d.state.settings ∧
        ∀ key, (actAll .up now d mods).1.state.injectedFor key = d.state.injectedFor key) := by
  induction mods generalizing d with
  | nil => exact ⟨by simp [actAll], fun _ => ⟨by simp [actAll], htidy, rfl, fun _ => rfl⟩⟩
  | cons mod mods ih =>
    obtain ⟨hmod, hmods⟩ := List.forall_mem_cons.mp hmods
    have hstate := (KeyboardDriver.step_up d mod now).1
    have hordinary : mod.isOrdinary = false := by simp [PhysicalKey.isOrdinary, hmod]
    have hact : actAll .up now d (mod :: mods) =
        match d.step (.action .up mod now) with
        | (d, .ok ()) => actAll .up now d mods
        | (d, .error e) => (d, .error e) := rfl
    rw [hact]
    cases hstep : d.step (.action .up mod now) with
    | mk d₁ result =>
      have hnever := fun e => KeyboardDriver.step_up_ne_error d mod now (e := e)
      rw [hstep] at hstate hnever
      cases result with
      | error e => exact ⟨hnever, fun h => by cases h⟩
      | ok u =>
        have hrelease : d₁.state = (d.state.release mod now).1 := hstate
        obtain ⟨hne, hrest⟩ := ih (hrelease ▸ htidy.release mod now) hmods
        refine ⟨hne, fun hok => ?_⟩
        obtain ⟨hmem, htidy', hsettings, hrecords⟩ := hrest hok
        refine ⟨fun key => ?_, htidy', ?_, fun key => ?_⟩
        · rw [hmem, hrelease, KeyboardState.mem_release, KeyboardState.releases, hordinary]
          rw [if_neg Bool.false_ne_true, List.mem_singleton, List.mem_cons]
          constructor
          · rintro ⟨⟨hd, hself⟩, hnot⟩
            exact ⟨hd, not_or.mpr ⟨fun h => hself (h ▸ hd) h, hnot⟩⟩
          · rintro ⟨hd, hnot⟩
            exact ⟨⟨hd, fun _ => (not_or.mp hnot).1⟩, (not_or.mp hnot).2⟩
        · rw [hsettings, hrelease, KeyboardState.release_settings]
        · rw [hrecords, hrelease, KeyboardState.injectedFor_eq, KeyboardState.injectedFor_eq]
          rcases KeyboardState.release_records d.state mod now with ⟨hsame, -⟩ | ⟨-, hord, -⟩
          · rw [hsame]
          · rw [hordinary] at hord
            cases hord

/-! ### One character -/

theorem extraKeys_modifiers (extra : ModifierSet) :
    ∀ mod ∈ extraKeys extra, mod.isModifier = true := by
  intro mod hm
  obtain ⟨kind, -, rfl⟩ := List.mem_map.mp hm
  exact PhysicalKey.isModifier_iff.mpr ⟨kind, kind.modifierKind_preferredKey⟩

theorem nodup_extraKeys (extra : ModifierSet) : (extraKeys extra).Nodup := by
  have hall : ModifierKind.all.Nodup := by decide
  exact (hall.filter _).map fun _ _ h => ModifierKind.preferredKey_injective h

/-- What a chord that is typed does: the modifiers, the key and what is on record for the key are
up, and of the keys that are down none is on record otherwise than before. -/
structure Typed (s s' : KeyboardState) (key : PhysicalKey) (extra : ModifierSet) : Prop where
  mem : ∀ key', key' ∈ s'.depressed ↔
    key' ∈ s.depressed ∧ key' ∉ extraKeys extra ∧ key' ∉ s.releases key
  tidy : s'.Tidy
  settings : s'.settings = s.settings
  records : ∀ key', ∀ mod ∈ s'.depressed, mod ∈ s'.injectedFor key' ↔ mod ∈ s.injectedFor key'

theorem releases_congr {s s' : KeyboardState} (h : s'.injectedMods = s.injectedMods)
    (key : PhysicalKey) : s'.releases key = s.releases key := by
  simp only [KeyboardState.releases, KeyboardState.injectedFor, h]

theorem mem_of_mem_engagedNew {cap : ℕ} {held mods : List PhysicalKey}
    (h : key ∈ engagedNew cap held mods) : key ∈ mods :=
  List.mem_of_mem_filter (List.mem_of_mem_take h)

/-- A press that the state machine does not refuse is of a key that is down or below the cap. -/
theorem accepted_of_step_tap (d : KeyboardDriver σ) (key : PhysicalKey) (now : ℕ)
    (h : ∀ e, (d.step (.action .tap key now)).2 ≠ .error (.state e)) :
    key ∈ d.state.depressed ∨ d.state.depressed.len < d.state.settings.maxHeldKeys := by
  by_contra hno
  obtain ⟨hup, hfull⟩ := not_or.mp hno
  exact h _ ((d.step_tap_error_iff key now).mpr
    (KeyboardState.press_error_iff.mpr ⟨hup, Nat.le_of_not_lt hfull, rfl⟩))

theorem typed_typeChord (key : PhysicalKey) (extra : ModifierSet) (now : ℕ)
    (htidy : d.state.Tidy) (hcap : d.state.Capped)
    (hok : (typeChord d key extra now).2 = .ok ()) :
    Typed d.state (typeChord d key extra now).1.state key extra := by
  unfold typeChord at hok ⊢
  obtain ⟨hengaged, -⟩ := engaged_actAll now htidy hcap (extraKeys_modifiers extra)
    (nodup_extraKeys extra) fun e h => by
      cases hdowns : actAll .down now d (extraKeys extra) with
      | mk d₁ result => rw [hdowns] at hok h; cases h; cases hok
  cases hdowns : actAll .down now d (extraKeys extra) with
  | mk d₁ result =>
    rw [hdowns] at hok hengaged
    cases result with
    | error e => cases hok
    | ok u =>
      have hcap₁ : d₁.state.Capped := hcap.of_settings hengaged.settings
      have haccepted := accepted_of_step_tap d₁ key now
      have htap := d₁.step_tap key now
      dsimp only [KeyboardDriver.handleAction] at hok ⊢
      cases hstep : d₁.step (.action .tap key now) with
      | mk d₂ result =>
        rw [hstep] at hok haccepted htap
        cases result with
        | error e => cases hok
        | ok u =>
          have htap : d₂.state = d₁.state.tap key now (addDuration now tapGrace) := htap
          have haccepted := haccepted (by simp)
          have htidy₂ : d₂.state.Tidy := htap ▸ (hengaged.tidy.press hcap₁ key now).release key _
          obtain ⟨-, hups⟩ := actAll_up now htidy₂ fun mod hm =>
            extraKeys_modifiers extra mod (List.mem_reverse.mp hm)
          obtain ⟨hmem, htidy₃, hsettings, hrecords⟩ := hups hok
          have hmem₂ : ∀ key', key' ∈ d₂.state.depressed ↔
              key' ∈ d₁.state.depressed ∧ key' ∉ d.state.releases key := by
            intro key'
            rw [htap, hengaged.tidy.mem_tap hcap₁ haccepted, releases_congr hengaged.records]
          refine ⟨fun key' => ?_, htidy₃, ?_, fun key' mod hm => ?_⟩
          · have hnew : key' ∉ extraKeys extra → (key' ∈ d₁.state.depressed ↔
                key' ∈ d.state.depressed) := fun hno => by
              rw [hengaged.mem]
              exact or_iff_left fun h => hno (mem_of_mem_engagedNew h)
            rw [hmem, hmem₂, List.mem_reverse]
            constructor
            · rintro ⟨⟨hd₁, hrel⟩, hno⟩
              exact ⟨(hnew hno).mp hd₁, hno, hrel⟩
            · rintro ⟨hd, hno, hrel⟩
              exact ⟨⟨(hnew hno).mpr hd, hrel⟩, hno⟩
          · rw [hsettings, htap, KeyboardState.tap, KeyboardState.release_settings,
              KeyboardState.press_settings, hengaged.settings]
          · have hm₂ : mod ∈ (d₁.state.tap key now (addDuration now tapGrace)).depressed :=
              htap ▸ ((hmem mod).mp hm).1
            rw [hrecords, htap, hengaged.tidy.mem_injectedFor_tap hcap₁ hm₂,
              KeyboardState.injectedFor_eq, hengaged.records, ← KeyboardState.injectedFor_eq]

/-- A chord that the state machine refuses leaves the modifiers down that were pressed for it,
and the cap is reached. -/
theorem engaged_typeChord (htidy : d.state.Tidy) (hcap : d.state.Capped) {e : StateError}
    (herror : (typeChord d key extra now).2 = .error (.state e)) :
    Engaged d.state (typeChord d key extra now).1.state (extraKeys extra) ∧
      d.state.settings.maxHeldKeys ≤ (typeChord d key extra now).1.state.depressed.len := by
  unfold typeChord at herror ⊢
  obtain ⟨hengaged, hfull⟩ := engaged_actAll now htidy hcap (extraKeys_modifiers extra)
    (nodup_extraKeys extra) fun e h => by
      cases hdowns : actAll .down now d (extraKeys extra) with
      | mk d₁ result => rw [hdowns] at herror h; cases h; cases herror
  cases hdowns : actAll .down now d (extraKeys extra) with
  | mk d₁ result =>
    rw [hdowns] at herror hengaged hfull
    cases result with
    | error e' => exact ⟨hengaged, hfull e herror⟩
    | ok u =>
      have hrefused := fun e => d₁.step_tap_error_iff key now (e := e)
      have htap := d₁.step_tap key now
      dsimp only [KeyboardDriver.handleAction] at herror ⊢
      cases hstep : d₁.step (.action .tap key now) with
      | mk d₂ result =>
        rw [hstep] at herror hrefused htap
        cases result with
        | ok u =>
          have hcap₁ : d₁.state.Capped := hcap.of_settings hengaged.settings
          have htidy₂ : d₂.state.Tidy :=
            (htap : d₂.state = _) ▸ (hengaged.tidy.press hcap₁ key now).release key _
          exact absurd herror ((actAll_up now htidy₂ fun mod hm =>
            extraKeys_modifiers extra mod (List.mem_reverse.mp hm)).1 e)
        | error e' =>
          obtain rfl : e' = .state e := by simpa using herror
          have hpress := (hrefused e).mp rfl
          obtain ⟨hup, hfull, -⟩ := KeyboardState.press_error_iff.mp hpress
          have hsame : d₂.state = d₁.state := by
            rw [htap, KeyboardState.tap, KeyboardState.press_full hup hfull,
              KeyboardState.release_absent hup]
          rw [hengaged.settings] at hfull
          exact ⟨hsame ▸ hengaged, hsame ▸ hfull⟩

/-! ### Texts -/

variable {resolve : ρ → Char → ρ × Option (PhysicalKey × ModifierSet)} {r : ρ}

/-- What the resolver says about a text, and what it remembers afterwards. -/
def resolveAll (resolve : ρ → Char → ρ × Option (PhysicalKey × ModifierSet)) (r : ρ) :
    List Char → ρ × List (PhysicalKey × ModifierSet)
  | [] => (r, [])
  | c :: cs =>
    let rest := resolveAll resolve (resolve r c).1 cs
    (rest.1, (resolve r c).2.toList ++ rest.2)

/-- The keys that typing some chords lets go of. -/
def letsGo (s : KeyboardState) (chords : List (PhysicalKey × ModifierSet)) : List PhysicalKey :=
  chords.flatMap fun chord => extraKeys chord.2 ++ s.releases chord.1

/-- The character has no key, or the state machine refuses a press of its chord. -/
def Refused (resolve : ρ → Char → ρ × Option (PhysicalKey × ModifierSet)) (now : ℕ)
    (d : KeyboardDriver σ) (r : ρ) (c : Char) : Prop :=
  match (resolve r c).2 with
  | none => True
  | some (key, extra) => ∃ e, (typeChord d key extra now).2 = .error (.state e)

/-- The sink refuses an event of the character's chord. -/
def SinkRefused (resolve : ρ → Char → ρ × Option (PhysicalKey × ModifierSet)) (now : ℕ)
    (d : KeyboardDriver σ) (r : ρ) (c : Char) : Prop :=
  ∃ key extra e, (resolve r c).2 = some (key, extra) ∧
    (typeChord d key extra now).2 = .error (.sink e)

/-- The text is typed up to the character, which has no key or is refused. -/
def FailsAt (resolve : ρ → Char → ρ × Option (PhysicalKey × ModifierSet)) (now : ℕ)
    (d : KeyboardDriver σ) (r : ρ) (pre : List Char) (c : Char) : Prop :=
  (typeText resolve now d r pre).2.2 = .ok () ∧
    Refused resolve now (typeText resolve now d r pre).1 (resolveAll resolve r pre).1 c

/-- The text is typed up to the character, at which the sink fails. -/
def SinkFailsAt (resolve : ρ → Char → ρ × Option (PhysicalKey × ModifierSet)) (now : ℕ)
    (d : KeyboardDriver σ) (r : ρ) (pre : List Char) (c : Char) : Prop :=
  (typeText resolve now d r pre).2.2 = .ok () ∧
    SinkRefused resolve now (typeText resolve now d r pre).1 (resolveAll resolve r pre).1 c

theorem Typed.mem_letsGo {s s' : KeyboardState} (h : Typed s s' key extra) {key' : PhysicalKey}
    (hm : key' ∈ s'.depressed) (chords : List (PhysicalKey × ModifierSet)) :
    key' ∈ letsGo s' chords ↔ key' ∈ letsGo s chords := by
  have hreleases : ∀ key'', key' ∈ s'.releases key'' ↔ key' ∈ s.releases key'' := by
    intro key''
    unfold KeyboardState.releases
    split
    · rw [List.mem_cons, List.mem_cons, h.records key'' key' hm]
    · rfl
  simp only [letsGo, List.mem_flatMap, List.mem_append, hreleases]

theorem typeText_ok {text : List Char} (htidy : d.state.Tidy) (hcap : d.state.Capped)
    (hok : (typeText resolve now d r text).2.2 = .ok ()) :
    (typeText resolve now d r text).2.1 = (resolveAll resolve r text).1 ∧
      (∀ key, key ∈ (typeText resolve now d r text).1.state.depressed ↔
        key ∈ d.state.depressed ∧ key ∉ letsGo d.state (resolveAll resolve r text).2) ∧
      (typeText resolve now d r text).1.state.Tidy ∧
      (typeText resolve now d r text).1.state.settings = d.state.settings := by
  induction text generalizing d r with
  | nil => exact ⟨rfl, by simp [typeText, resolveAll, letsGo], htidy, rfl⟩
  | cons c cs ih =>
    rw [typeText] at hok ⊢
    rw [resolveAll]
    cases hresolve : resolve r c with
    | mk r₁ chord =>
      rw [hresolve] at hok
      cases chord with
      | none => cases hok
      | some chord =>
        obtain ⟨key, extra⟩ := chord
        have htyped := typed_typeChord key extra now htidy hcap
        dsimp only at hok ⊢
        cases hchord : typeChord d key extra now with
        | mk d₁ result =>
          rw [hchord] at hok htyped
          cases result with
          | error e => cases hok
          | ok u =>
            have htyped := htyped rfl
            obtain ⟨hr, hmem, htidy', hsettings⟩ :=
              ih htyped.tidy (hcap.of_settings htyped.settings) hok
            refine ⟨hr, fun key' => ?_, htidy', hsettings.trans htyped.settings⟩
            have hcons : key' ∈ letsGo d.state ([(key, extra)] ++ (resolveAll resolve r₁ cs).2) ↔
                (key' ∈ extraKeys extra ∨ key' ∈ d.state.releases key) ∨
                  key' ∈ letsGo d.state (resolveAll resolve r₁ cs).2 := by
              simp [letsGo, or_assoc]
            have hrest : key' ∈ d₁.state.depressed →
                (key' ∈ letsGo d₁.state (resolveAll resolve r₁ cs).2 ↔
                  key' ∈ letsGo d.state (resolveAll resolve r₁ cs).2) :=
              fun hm => htyped.mem_letsGo hm _
            rw [hmem, Option.toList_some, hcons, not_or, not_or]
            constructor
            · rintro ⟨hd₁, hgone⟩
              obtain ⟨hd, hhere⟩ := (htyped.mem key').mp hd₁
              exact ⟨hd, hhere, mt (hrest hd₁).mpr hgone⟩
            · rintro ⟨hd, hhere, hgone⟩
              have hd₁ := (htyped.mem key').mpr ⟨hd, hhere⟩
              exact ⟨hd₁, mt (hrest hd₁).mp hgone⟩

theorem typeText_append {pre : List Char} (hok : (typeText resolve now d r pre).2.2 = .ok ())
    (rest : List Char) : typeText resolve now d r (pre ++ rest) = typeText resolve now
      (typeText resolve now d r pre).1 (typeText resolve now d r pre).2.1 rest := by
  induction pre generalizing d r with
  | nil => rfl
  | cons c cs ih =>
    rw [List.cons_append, typeText, typeText] at *
    cases hresolve : resolve r c with
    | mk r₁ chord =>
      rw [hresolve] at hok
      cases chord with
      | none => cases hok
      | some chord =>
        obtain ⟨key, extra⟩ := chord
        dsimp only at hok ⊢
        cases hchord : typeChord d key extra now with
        | mk d₁ result =>
          rw [hchord] at hok
          cases result with
          | error e => cases hok
          | ok u => exact ih hok

/-- An error comes from the first character that is not typed. -/
theorem typeText_stops {text : List Char} {err : TextError}
    (herror : (typeText resolve now d r text).2.2 = .error err) : ∃ pre c post,
      text = pre ++ c :: post ∧
        (FailsAt resolve now d r pre c ∨ SinkFailsAt resolve now d r pre c) := by
  induction text generalizing d r with
  | nil => cases herror
  | cons c cs ih =>
    rw [typeText] at herror
    cases hresolve : resolve r c with
    | mk r₁ chord =>
      rw [hresolve] at herror
      cases chord with
      | none =>
        exact ⟨[], c, cs, rfl, .inl ⟨rfl, by simp [Refused, resolveAll, hresolve]⟩⟩
      | some chord =>
        obtain ⟨key, extra⟩ := chord
        dsimp only at herror
        cases hchord : typeChord d key extra now with
        | mk d₁ result =>
          rw [hchord] at herror
          cases result with
          | error e =>
            refine ⟨[], c, cs, rfl, ?_⟩
            cases e with
            | state e =>
              exact .inl ⟨rfl, by simp [Refused, resolveAll, typeText, hresolve, hchord]⟩
            | sink e =>
              exact .inr ⟨rfl, key, extra, e, by simp [resolveAll, hresolve],
                by simp [typeText, hchord]⟩
          | ok u =>
            obtain ⟨pre, c', post, rfl, hstop⟩ := ih herror
            refine ⟨c :: pre, c', post, rfl, ?_⟩
            simp only [FailsAt, SinkFailsAt, typeText, resolveAll, hresolve, hchord]
            exact hstop

/-- A text fails at a character that has no key or is refused. -/
theorem FailsAt.error {pre : List Char} {c : Char} (hr : (typeText resolve now d r pre).2.1 =
    (resolveAll resolve r pre).1) (h : FailsAt resolve now d r pre c) (post : List Char) :
    ∃ err, (typeText resolve now d r (pre ++ c :: post)).2.2 = .error err := by
  obtain ⟨hok, hrefused⟩ := h
  rw [typeText_append hok, hr, typeText]
  unfold Refused at hrefused
  cases hresolve : resolve (resolveAll resolve r pre).1 c with
  | mk r₁ chord =>
    rw [hresolve] at hrefused
    cases chord with
    | none => exact ⟨_, rfl⟩
    | some chord =>
      obtain ⟨key, extra⟩ := chord
      obtain ⟨e, he⟩ := hrefused
      dsimp only
      cases hchord : typeChord (typeText resolve now d r pre).1 key extra now with
      | mk d₁ result =>
        rw [hchord] at he
        obtain rfl : result = .error (.state e) := he
        exact ⟨_, rfl⟩

/-- The depressed keys are as before the call, and no modifier is left down that was pressed for
a character that could not be typed. -/
structure Restored (before typed after : KeyboardState)
    (chord : Option (PhysicalKey × ModifierSet)) : Prop where
  depressed : ∀ key, key ∈ after.depressed ↔ key ∈ before.depressed
  engaged : ∀ key extra, chord = some (key, extra) → ∀ mod ∈ extraKeys extra,
    mod ∉ typed.depressed → mod ∉ after.depressed

theorem len_eq_of_mem {k k' : KeySet} (h : ∀ key, key ∈ k ↔ key ∈ k') : k.len = k'.len := by
  have hperm : k.keys.Perm k'.keys := (List.perm_ext_iff_of_nodup k.nodup k'.nodup).mpr h
  rw [← KeySet.length_keys, ← KeySet.length_keys, hperm.length_eq]

/-- When a text ends at a character that has no key or is refused by the state machine, everything
is restored exactly if the characters before let go of no key that was held, and the cap was
reached before the call, unless the character has no key. -/
theorem restored_iff {pre : List Char} {c : Char} (htidy : d.state.Tidy) (hcap : d.state.Capped)
    (h : FailsAt resolve now d r pre c) (post : List Char) :
    Restored d.state (typeText resolve now d r pre).1.state
        (typeText resolve now d r (pre ++ c :: post)).1.state
        (resolve (resolveAll resolve r pre).1 c).2 ↔
      (∀ key ∈ d.state.depressed, key ∉ letsGo d.state (resolveAll resolve r pre).2) ∧
        ((resolve (resolveAll resolve r pre).1 c).2 = none ∨
          d.state.settings.maxHeldKeys ≤ d.state.depressed.len) := by
  obtain ⟨hok, hrefused⟩ := h
  obtain ⟨hr, hmem, htidy₁, hsettings⟩ := typeText_ok htidy hcap hok
  rw [typeText_append hok, hr, typeText]
  generalize (typeText resolve now d r pre).1 = d₁ at *
  generalize letsGo d.state (resolveAll resolve r pre).2 = gone at *
  generalize (resolveAll resolve r pre).1 = r₁ at *
  have hcap₁ : d₁.state.Capped := hcap.of_settings hsettings
  rw [Refused] at hrefused
  cases hresolve : resolve r₁ c with
  | mk r₂ chord =>
    rw [hresolve] at hrefused
    cases chord with
    | none =>
      constructor
      · intro h
        exact ⟨fun key hk => ((hmem key).mp ((h.depressed key).mpr hk)).2, .inl rfl⟩
      · rintro ⟨hkept, -⟩
        refine ⟨fun key => (hmem key).trans ?_, fun key extra h => by cases h⟩
        exact and_iff_left_of_imp (hkept key)
    | some chord =>
      obtain ⟨key, extra⟩ := chord
      obtain ⟨e, he⟩ := hrefused
      obtain ⟨hengaged, hfull⟩ := engaged_typeChord htidy₁ hcap₁ he
      dsimp only
      cases hchord : typeChord d₁ key extra now with
      | mk d₂ result =>
        rw [hchord] at hengaged hfull he
        obtain rfl : result = .error (.state e) := he
        have hfull : d.state.settings.maxHeldKeys ≤ d₂.state.depressed.len := hsettings ▸ hfull
        change Restored d.state d₁.state d₂.state (some (key, extra)) ↔ _
        constructor
        · intro h
          have hnew : ∀ mod ∈ engagedNew d₁.state.settings.maxHeldKeys d₁.state.depressed.keys
              (extraKeys extra), mod ∈ d₁.state.depressed := by
            intro mod hm
            by_contra hup
            exact h.engaged key extra rfl mod (mem_of_mem_engagedNew hm) hup
              ((hengaged.mem mod).mpr (.inr hm))
          refine ⟨fun held hd => ?_, .inr ?_⟩
          · have hd₂ := (hengaged.mem held).mp ((h.depressed held).mpr hd)
            exact ((hmem held).mp (hd₂.elim id (hnew held))).2
          · rwa [← len_eq_of_mem h.depressed]
        · rintro ⟨hkept, hnone | hcapped⟩
          · cases hnone
          have hsame : ∀ key, key ∈ d₁.state.depressed ↔ key ∈ d.state.depressed :=
            fun held => (hmem held).trans (and_iff_left_of_imp (hkept held))
          have hnone : engagedNew d₁.state.settings.maxHeldKeys d₁.state.depressed.keys
              (extraKeys extra) = [] := by
            rw [engagedNew, KeySet.length_keys, len_eq_of_mem hsame, hsettings,
              Nat.sub_eq_zero_of_le hcapped, List.take_zero]
          have hup : ∀ held, held ∈ d₂.state.depressed ↔ held ∈ d₁.state.depressed :=
            fun held => (hengaged.mem held).trans (by simp [hnone])
          exact ⟨fun held => (hup held).trans (hsame held),
            fun _ _ _ mod _ hmod hd₂ => hmod ((hup mod).mp hd₂)⟩

/-- In every driver that is reached, a text that is typed in part ends at a character that has no
key or is refused, or at a failure of the sink. In the first case the keys that were down are
restored and nothing is left engaged exactly if the chords before let go of no key that was
held, and either the character has no key or the keys that were held already reach the cap. -/
theorem typeText_restores_iff {settings : StateSettings}
    (hcap : settings.maxHeldKeys + ModifierKind.count ≤ maxHeldKeys)
    (repeatSettings : RepeatSettings) (layout : Layout) (sink : σ) (calls : List DriverCall)
    {d : KeyboardDriver σ}
    (hd : run KeyboardDriver.step (.new settings repeatSettings layout sink) calls = d)
    (resolve : ρ → Char → ρ × Option (PhysicalKey × ModifierSet)) (now : ℕ) (r : ρ) :
    (∀ text err, (typeText resolve now d r text).2.2 = .error err → ∃ pre c post,
      text = pre ++ c :: post ∧
        (FailsAt resolve now d r pre c ∨ SinkFailsAt resolve now d r pre c)) ∧
    ∀ pre c post, FailsAt resolve now d r pre c →
      (∃ err, (typeText resolve now d r (pre ++ c :: post)).2.2 = .error err) ∧
      (Restored d.state (typeText resolve now d r pre).1.state
          (typeText resolve now d r (pre ++ c :: post)).1.state
          (resolve (resolveAll resolve r pre).1 c).2 ↔
        (∀ key ∈ d.state.depressed, key ∉ letsGo d.state (resolveAll resolve r pre).2) ∧
          ((resolve (resolveAll resolve r pre).1 c).2 = none ∨
            d.state.settings.maxHeldKeys ≤ d.state.depressed.len)) := by
  have hnew : (KeyboardDriver.new settings repeatSettings layout sink).state.Capped := hcap
  have htidy : d.state.Tidy :=
    hd ▸ KeyboardDriver.tidy_run (KeyboardState.tidy_new settings) hnew calls
  have hcapped : d.state.Capped := hd ▸ hnew.of_settings (KeyboardDriver.run_settings _ calls)
  refine ⟨fun text err => typeText_stops, fun pre c post hfails => ⟨?_, ?_⟩⟩
  · exact hfails.error (typeText_ok htidy hcapped hfails.1).1 post
  · exact restored_iff htidy hcapped hfails post

/-- A driver with the default cap and the given keys held down. -/
def holding (keys : List PhysicalKey) : KeyboardDriver Recorder :=
  run KeyboardDriver.step
    (.new ⟨true, 400000000, 16⟩ ⟨true, 500000000, 30000000⟩ ⟨fun _ => none⟩ ⟨[]⟩)
    (keys.map fun key => .action .down key 0)

/-- Capital A needs Shift, and nothing else has a key. -/
def capitalA : Unit → Char → Unit × Option (PhysicalKey × ModifierSet) := fun _ c =>
  ((), if c = 'A' then some (.a, .shift) else none)

/-- With another key held, a capital A is typed, a character without a key is not, and everything
is as before. -/
theorem unmappable_restores :
    FailsAt capitalA 5 (holding [.b]) () ['A'] 'x' ∧
      Restored (holding [.b]).state (typeText capitalA 5 (holding [.b]) () ['A']).1.state
        (typeText capitalA 5 (holding [.b]) () ['A', 'x']).1.state none := by
  have hfails : FailsAt capitalA 5 (holding [.b]) () ['A'] 'x' := ⟨by decide +kernel, trivial⟩
  have hcap : (⟨true, 400000000, 16⟩ : StateSettings).maxHeldKeys + ModifierKind.count ≤
      maxHeldKeys := by decide
  have hiff := ((typeText_restores_iff hcap _ _ _ _ rfl capitalA 5 ()).2 ['A'] 'x' [] hfails).2
  exact ⟨hfails, hiff.mpr ⟨by decide +kernel, .inl rfl⟩⟩

/-- Fifteen keys. -/
def fifteenKeys : List PhysicalKey :=
  [.f1, .f2, .f3, .f4, .f5, .f6, .f7, .f8, .f9, .f10, .f11, .f12, .q, .w, .e]

/-- With fifteen keys held, Shift goes down as the sixteenth and the letter is refused. Shift is
then left down. -/
theorem refusedCapital_not_restored :
    FailsAt capitalA 5 (holding fifteenKeys) () [] 'A' ∧
      (typeText capitalA 5 (holding fifteenKeys) () ['A']).2.2 = .error (.backend <|
        "keyboard state machine error: " ++
          "keyboard rollover limit (16 simultaneously held keys) exceeded") ∧
      PhysicalKey.leftShift ∉ (holding fifteenKeys).state.depressed ∧
      PhysicalKey.leftShift ∈
        (typeText capitalA 5 (holding fifteenKeys) () ['A']).1.state.depressed := by
  refine ⟨⟨rfl, ?_⟩, ?_, ?_, ?_⟩
  · exact ⟨.rollover 16, by decide +kernel⟩
  · decide +kernel
  · decide +kernel
  · decide +kernel

end App

end Ferrokey
