import Ferrokey.Collections.FirstMatch
import Ferrokey.Core.Layout

/-! # The order of a layout's keys

The search for a character takes the first key that the map happens to enumerate. The map
is seeded anew in every process, so where two keys have the character on the level that
decides, either of them can be found.
-/

namespace Ferrokey.Layouts

open Collections

namespace Layout

/-- Two enumerations of the same definitions. -/
def SameMap (l l' : Layout) : Prop := l'.entries.Perm l.entries

/-- On the first level that has a character, one key has it. -/
def Unambiguous (l : Layout) (c : Char) (active : ModifierSet) : Prop :=
  ∀ mods, (levels.find? fun mods => (l.producer c (active.union mods)).isSome) = some mods →
    ∀ key key', l.symbolFor key (active.union mods) = some (.char c) →
      l.symbolFor key' (active.union mods) = some (.char c) → key = key'

variable {l l' : Layout} {c : Char} {active mods : ModifierSet}

theorem producer_isSome_of_sameMap (h : l.SameMap l') :
    (l'.producer c mods).isSome = (l.producer c mods).isSome := by
  simp only [producer, Option.isSome_map]
  exact find?_isSome_perm h

/-- The level that decides is the same in every enumeration. -/
theorem findChar_level (l : Layout) (c : Char) (active : ModifierSet) : l.findChar c active =
    (levels.find? fun mods => (l.producer c (active.union mods)).isSome).bind fun mods =>
      (l.producer c (active.union mods)).map (·, mods) := by
  rw [findChar_eq]
  induction levels with
  | nil => rfl
  | cons mods mods' ih =>
    rw [List.findSome?_cons, List.find?_cons]
    cases hfound : l.producer c (active.union mods) with
    | some key => simp [hfound]
    | none => simpa using ih

/-- Every enumeration finds the same key on a level exactly if one key at most has the
character there. -/
theorem producer_sameMap_iff (l : Layout) (c : Char) (mods : ModifierSet) :
    (∀ l', l.SameMap l' → l'.producer c mods = l.producer c mods) ↔
      ∀ key key', l.symbolFor key mods = some (.char c) → l.symbolFor key' mods = some (.char c) →
        key = key' := by
  have hhas : ∀ {key}, l.symbolFor key mods = some (.char c) →
      ∃ d, (key, d) ∈ l.entries ∧ produces c mods (key, d) = true := by
    intro key h
    obtain ⟨d, hd, hsymbol⟩ := symbolFor_eq_some_iff.mp h
    exact ⟨d, hd, decide_eq_true hsymbol⟩
  constructor
  · intro h
    have hfound : ∀ {key}, l.symbolFor key mods = some (.char c) →
        l.producer c mods = some key := by
      intro key hkey
      obtain ⟨d, hd, hp⟩ := hhas hkey
      obtain ⟨entries, hperm, hfind⟩ := exists_perm_find? hd hp
      have hsame := h ⟨entries, (hperm.map _).nodup_iff.mpr l.nodup⟩ hperm
      rw [← hsame, producer, hfind]
      rfl
    intro key key' hkey hkey'
    exact Option.some_inj.mp ((hfound hkey).symm.trans (hfound hkey'))
  · intro h l' hsame
    have hunique : ∀ a ∈ l.entries, ∀ b ∈ l.entries, produces c mods a = true →
        produces c mods b = true → a = b := by
      intro a ha b hb hpa hpb
      have hsymbol : ∀ {entry}, entry ∈ l.entries → produces c mods entry = true →
          l.symbolFor entry.1 mods = some (.char c) :=
        fun hm hp => symbolFor_eq_some_iff.mpr ⟨_, hm, of_decide_eq_true hp⟩
      exact List.inj_on_of_nodup_map l.nodup ha hb (h _ _ (hsymbol ha hpa) (hsymbol hb hpb))
    rw [producer, producer, find?_perm_iff.mpr hunique _ hsame]

/-- The search is independent of the enumeration exactly if the deciding level is
unambiguous. -/
theorem findChar_sameMap_iff (l : Layout) (c : Char) (active : ModifierSet) :
    (∀ l', l.SameMap l' → l'.findChar c active = l.findChar c active) ↔
      l.Unambiguous c active := by
  have hlevel : ∀ l', l.SameMap l' →
      (fun mods => (l'.producer c (active.union mods)).isSome) =
        fun mods => (l.producer c (active.union mods)).isSome :=
    fun l' h => funext fun mods => producer_isSome_of_sameMap h
  unfold Unambiguous
  cases hfirst : levels.find? fun mods => (l.producer c (active.union mods)).isSome with
  | none =>
    refine iff_of_true (fun l' h => ?_) (by simp)
    rw [findChar_level, findChar_level, hlevel l' h, hfirst]
    rfl
  | some mods =>
    have hkey : (∀ l', l.SameMap l' → l'.findChar c active = l.findChar c active) ↔
        ∀ l', l.SameMap l' →
          l'.producer c (active.union mods) = l.producer c (active.union mods) := by
      refine forall₂_congr fun l' h => ?_
      rw [findChar_level, findChar_level, hlevel l' h, hfirst]
      exact (Option.map_injective fun _ _ heq => (Prod.mk.inj heq).1).eq_iff
    rw [hkey, producer_sameMap_iff]
    simp

/-- A key with a character and its shifted one, and no other levels. -/
def charKey (c shifted : Char) : KeyDefinition :=
  ⟨⟨true⟩, .char c, .char shifted, none, none, none⟩

/-- The digit row and the keypad have a one each, and the digit row is enumerated first. -/
def digitFirst : Layout :=
  ⟨[(.d1, charKey '1' '!'), (.kp1, charKey '1' '1')], by decide⟩

/-- The same layout with the keypad first. -/
def keypadFirst : Layout :=
  ⟨[(.kp1, charKey '1' '1'), (.d1, charKey '1' '!')], by decide⟩

theorem one_depends_on_enumeration : digitFirst.SameMap keypadFirst ∧
    digitFirst.findChar '1' .empty = some (.d1, .empty) ∧
    keypadFirst.findChar '1' .empty = some (.kp1, .empty) :=
  ⟨List.Perm.swap _ _ _, by decide, by decide⟩

end Layout

end Ferrokey.Layouts
