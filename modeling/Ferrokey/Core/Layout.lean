import Ferrokey.Core.Driver

/-! # Keyboard layouts

A layout gives every key it defines a symbol on each of its levels. The text path searches it
backwards, for a key and the modifiers to add that produce a character. The map of the
definitions has no order of its own; its entries stand in the order in which it happens to
be enumerated.
-/

namespace Ferrokey.Layouts

inductive DeadKey where
  | grave | acute | circumflex | tilde | diaeresis | cedilla | ring | caron | breve | doubleAcute
  | ogonek | macron | horn | hookAbove | abovedot | belowdot | stroke
  deriving DecidableEq, Repr

/-- What a key produces: nothing, a character, a named function, a dead accent or the start
of a compose sequence. -/
inductive KeySymbol where
  | none
  | char (c : Char)
  | name (s : String)
  | dead (d : DeadKey)
  | compose
  deriving DecidableEq, Repr

/-- The full definition of a key. -/
structure KeyDefinition extends Ferrokey.KeyDefinition where
  primary : KeySymbol
  shifted : KeySymbol
  altgr : Option KeySymbol
  shiftAltgr : Option KeySymbol
  fnLayer : Option KeySymbol
  deriving DecidableEq, Repr

/-- The symbol of a key under some modifiers. -/
def KeyDefinition.symbolFor (d : KeyDefinition) (mods : ModifierSet) : KeySymbol :=
  let level :=
    match mods.contains .altgr, mods.contains .shift with
    | true, true => d.shiftAltgr.getD (d.altgr.getD d.shifted)
    | true, false => d.altgr.getD d.primary
    | false, true => d.shifted
    | false, false => d.primary
  if mods.contains .fn then d.fnLayer.getD level else level

/-- Only Shift, AltGr and Fn decide about the symbol. -/
theorem KeyDefinition.symbolFor_congr (d : KeyDefinition) {mods mods' : ModifierSet}
    (h : ∀ kind, mods.contains (.ofKind kind) = mods'.contains (.ofKind kind)) :
    d.symbolFor mods = d.symbolFor mods' := by
  have haltgr : mods.contains .altgr = mods'.contains .altgr := h .altGr
  have hshift : mods.contains .shift = mods'.contains .shift := h .shift
  have hfn : mods.contains .fn = mods'.contains .fn := h .fn
  rw [symbolFor, haltgr, hshift, hfn]
  rfl

structure Layout where
  entries : List (PhysicalKey × KeyDefinition)
  nodup : (entries.map Prod.fst).Nodup

namespace Layout

def get (l : Layout) (key : PhysicalKey) : Option KeyDefinition :=
  (l.entries.find? (·.1 == key)).map Prod.snd

/-- What the driver reads of a layout. -/
def driverLayout (l : Layout) : Ferrokey.Layout :=
  ⟨fun key => (l.get key).map (·.toKeyDefinition)⟩

def symbolFor (l : Layout) (key : PhysicalKey) (mods : ModifierSet) : Option KeySymbol :=
  (l.get key).map (·.symbolFor mods)

/-- The modifier combinations in the order of preference, each as what is asked of the active
modifiers and what is added to them. -/
def combos : List (ModifierSet × ModifierSet) :=
  [(.empty, .empty), (.shift, .shift), (.altgr, .altgr),
    (.union .shift .altgr, .union .shift .altgr)]

/-- A key that produces a character, with the modifiers to add to the active ones. -/
def findChar (l : Layout) (c : Char) (active : ModifierSet) : Option (PhysicalKey × ModifierSet) :=
  match l.entries.find? fun entry => decide (entry.2.symbolFor active = .char c) with
  | some entry => some (entry.1, .empty)
  | none => combos.findSome? fun (extra, combo) =>
    let effective := active.union combo
    (l.entries.find? fun entry => decide (entry.2.symbolFor effective = .char c) &&
      !active.contains (extra.intersection combo)).map fun entry => (entry.1, combo)

/-! ### The search -/

variable {l : Layout} {c : Char} {active mods : ModifierSet} {key : PhysicalKey}

/-- Whether an entry produces a character under some modifiers. -/
def produces (c : Char) (mods : ModifierSet) (entry : PhysicalKey × KeyDefinition) : Bool :=
  decide (entry.2.symbolFor mods = .char c)

/-- The first key that produces a character under some modifiers. -/
def producer (l : Layout) (c : Char) (mods : ModifierSet) : Option PhysicalKey :=
  (l.entries.find? (produces c mods)).map Prod.fst

theorem get_eq_some_iff {d : KeyDefinition} : l.get key = some d ↔ (key, d) ∈ l.entries := by
  rw [get, Option.map_eq_some_iff]
  constructor
  · rintro ⟨⟨key', d'⟩, hf, rfl⟩
    obtain rfl : key' = key := by simpa using List.find?_some hf
    exact List.mem_of_find?_eq_some hf
  · intro h
    have hs : (l.entries.find? (·.1 == key)).isSome := List.find?_isSome.mpr ⟨_, h, by simp⟩
    obtain ⟨⟨key', d'⟩, hf⟩ := Option.isSome_iff_exists.mp hs
    obtain rfl : key' = key := by simpa using List.find?_some hf
    have heq := List.inj_on_of_nodup_map l.nodup (List.mem_of_find?_eq_some hf) h rfl
    exact ⟨_, hf, congrArg Prod.snd heq⟩

theorem symbolFor_eq_some_iff {symbol : KeySymbol} : l.symbolFor key mods = some symbol ↔
    ∃ d, (key, d) ∈ l.entries ∧ d.symbolFor mods = symbol := by
  simp only [symbolFor, Option.map_eq_some_iff, get_eq_some_iff]

theorem symbolFor_congr {mods' : ModifierSet}
    (h : ∀ kind, mods.contains (.ofKind kind) = mods'.contains (.ofKind kind)) :
    l.symbolFor key mods = l.symbolFor key mods' := by
  rw [symbolFor, symbolFor]
  exact congrArg (l.get key).map (funext fun d => d.symbolFor_congr h)

theorem symbolFor_of_producer (h : l.producer c mods = some key) :
    l.symbolFor key mods = some (.char c) := by
  obtain ⟨⟨key', d⟩, hf, rfl⟩ := Option.map_eq_some_iff.mp h
  exact symbolFor_eq_some_iff.mpr
    ⟨d, List.mem_of_find?_eq_some hf, by simpa [produces] using List.find?_some hf⟩

theorem producer_eq_none_iff :
    l.producer c mods = none ↔ ∀ key, l.symbolFor key mods ≠ some (.char c) := by
  simp only [producer, Option.map_eq_none_iff, List.find?_eq_none, produces, decide_eq_true_eq,
    Ne, symbolFor_eq_some_iff, not_exists, not_and, Prod.forall]

/-- The levels that are searched, as the modifiers that are added. -/
def levels : List ModifierSet := [.empty, .shift, .altgr, .union .shift .altgr]

theorem find?_guarded {α : Type} {p : α → Bool} (entries : List α) (guard : Bool) :
    entries.find? (fun entry => p entry && !guard) = if guard then none else entries.find? p := by
  cases guard <;> simp

/-- A combination that is active already was tried before, so the guard only skips levels that
have nothing. -/
theorem findChar_eq (l : Layout) (c : Char) (active : ModifierSet) : l.findChar c active =
    levels.findSome? fun mods => (l.producer c (active.union mods)).map (·, mods) := by
  have hturn : l.producer c active = none → ∀ combo, ((l.entries.find? fun entry =>
      decide (entry.2.symbolFor (active.union combo) = .char c) &&
        !active.contains (combo.intersection combo)).map fun entry => (entry.1, combo)) =
      (l.producer c (active.union combo)).map (·, combo) := by
    intro hnone combo
    rw [find?_guarded, ModifierSet.intersection_self]
    split
    next hc => rw [ModifierSet.union_of_contains hc, hnone]; rfl
    next => simp [producer, Option.map_map, Function.comp_def]; rfl
  have hcode : (fun entry : PhysicalKey × KeyDefinition =>
      decide (entry.2.symbolFor active = .char c)) = produces c active := rfl
  rw [findChar, hcode]
  cases hfirst : l.entries.find? (produces c active) with
  | some entry =>
    have hproducer : l.producer c active = some entry.1 := by rw [producer, hfirst]; rfl
    simp [levels, ModifierSet.union_empty, hproducer]
  | none =>
    have hproducer : l.producer c active = none := by rw [producer, hfirst]; rfl
    simp only [combos, levels, List.findSome?_cons, hturn hproducer]
    rfl

theorem findChar_eq_none_iff : l.findChar c active = none ↔
    ∀ mods ∈ levels, l.producer c (active.union mods) = none := by
  simp only [findChar_eq, List.findSome?_eq_none_iff, Option.map_eq_none_iff]

/-- What is found is found on one of the levels, and no level before it has the character. -/
theorem findChar_eq_some (h : l.findChar c active = some (key, mods)) :
    l.producer c (active.union mods) = some key ∧
      (mods = .empty ∨ l.producer c (active.union .empty) = none ∧ (mods = .shift ∨ mods = .altgr ∨
        mods = .union .shift .altgr ∧ l.producer c (active.union .shift) = none ∧
          l.producer c (active.union .altgr) = none)) := by
  rw [findChar_eq, levels, List.findSome?_cons] at h
  cases hbase : l.producer c (active.union .empty) with
  | some key' =>
    rw [hbase] at h
    cases h
    exact ⟨hbase, .inl rfl⟩
  | none =>
    rw [hbase, Option.map_none, List.findSome?_cons] at h
    cases hshift : l.producer c (active.union .shift) with
    | some key' =>
      rw [hshift] at h
      cases h
      exact ⟨hshift, .inr ⟨rfl, .inl rfl⟩⟩
    | none =>
      rw [hshift, Option.map_none, List.findSome?_cons] at h
      cases haltgr : l.producer c (active.union .altgr) with
      | some key' =>
        rw [haltgr] at h
        cases h
        exact ⟨haltgr, .inr ⟨rfl, .inr (.inl rfl)⟩⟩
      | none =>
        rw [haltgr, Option.map_none, List.findSome?_cons] at h
        cases hboth : l.producer c (active.union (.union .shift .altgr)) with
        | some key' =>
          rw [hboth] at h
          cases h
          exact ⟨hboth, .inr ⟨rfl, .inr (.inr ⟨rfl, rfl, rfl⟩)⟩⟩
        | none =>
          rw [hboth] at h
          cases h

/-- The modifiers to add are not active: else a level before would have had the character. -/
theorem findChar_disjoint (h : l.findChar c active = some (key, mods)) :
    mods.intersection active = .empty := by
  obtain ⟨hfound, hlevel⟩ := findChar_eq_some h
  -- an active modifier leads back to a level that has nothing
  have hnew : ∀ mods', l.producer c (active.union mods') = none → ∀ kind,
      active.union mods = (active.union (.ofKind kind)).union mods' →
        active.contains (.ofKind kind) = false := by
    intro mods' hnone kind heq
    cases hc : active.contains (.ofKind kind) with
    | false => rfl
    | true =>
      rw [heq, ModifierSet.union_of_contains hc, hnone] at hfound
      cases hfound
  rcases hlevel with rfl | ⟨hbase, rfl | rfl | ⟨rfl, hshift, haltgr⟩⟩
  · rw [ModifierSet.intersection, ModifierSet.empty, UInt8.zero_and]
  · exact ModifierSet.ofKind_intersection (hnew .empty hbase _ (ModifierSet.union_empty _).symm)
  · exact ModifierSet.ofKind_intersection (hnew .empty hbase _ (ModifierSet.union_empty _).symm)
  · have hs := hnew .altgr haltgr .shift (ModifierSet.union_assoc ..).symm
    have ha := hnew .shift hshift .altGr (by
      rw [ModifierSet.union_assoc, ModifierSet.union_comm .shift]
      rfl)
    have hs' : ModifierSet.shift.intersection active = .empty := ModifierSet.ofKind_intersection hs
    have ha' : ModifierSet.altgr.intersection active = .empty := ModifierSet.ofKind_intersection ha
    rw [ModifierSet.union_intersection, hs', ha', ModifierSet.union_empty]

/-- The search is sound, it misses nothing on the four levels, and it adds nothing to a character
that some key already has. -/
theorem findChar_spec (l : Layout) (c : Char) (active : ModifierSet) :
    (∀ key mods, l.findChar c active = some (key, mods) →
      mods.intersection active = .empty ∧ l.symbolFor key (active.union mods) = some (.char c)) ∧
    (l.findChar c active = none → ∀ key,
      ∀ mods ∈ ([.empty, .shift, .altgr, .union .shift .altgr] : List ModifierSet),
        l.symbolFor key (active.union mods) ≠ some (.char c)) ∧
    ∀ key mods, l.findChar c active = some (key, mods) →
      (∃ key', l.symbolFor key' active = some (.char c)) → mods = .empty := by
  refine ⟨fun key mods h => ?_, fun h key mods hm => ?_, fun key mods h hhas => ?_⟩
  · exact ⟨findChar_disjoint h, symbolFor_of_producer (findChar_eq_some h).1⟩
  · exact producer_eq_none_iff.mp (findChar_eq_none_iff.mp h mods hm) key
  · rcases (findChar_eq_some h).2 with hempty | ⟨hbase, -⟩
    · exact hempty
    · obtain ⟨key', hkey'⟩ := hhas
      rw [ModifierSet.union_empty] at hbase
      exact absurd hkey' (producer_eq_none_iff.mp hbase key')

end Layout

end Ferrokey.Layouts
