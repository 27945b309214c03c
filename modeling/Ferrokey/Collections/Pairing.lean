import Mathlib.Data.List.Basic
import Mathlib.Tactic.Common

/-! # Lists of pairs

Some entries of a list open a pair and others close one. The list is paired if each entry
that opens is followed by one that closes, and each that closes follows one that opens.
It is read from the left with one bit of memory, so a list stays paired if parts of it
are exchanged where no pair is cut.
-/

namespace Ferrokey

variable {α : Type*} (opens closes : α → Bool)

/-- Whether a list leaves a pair open after it, if it starts with a pair open or not; refused if an
entry is out of its place. -/
def pairing : Bool → List α → Option Bool
  | isOpen, [] => some isOpen
  | isOpen, x :: xs =>
    if closes x = isOpen ∧ (isOpen && opens x) = false then pairing (opens x) xs else none

/-- No entry is out of its place, and no pair is left open. -/
def Paired (l : List α) : Prop := pairing opens closes false l = some false

/-- Whether a pair is cut between the entries before a position and those from it on. -/
def cutAt (l : List α) : ℕ → Bool
  | 0 => false
  | k + 1 => l[k]?.any opens

variable {opens closes} {l l' mid : List α} {isOpen isOpen' : Bool} {k lo hi : ℕ}

theorem pairing_append (l l' : List α) : pairing opens closes isOpen (l ++ l') =
    (pairing opens closes isOpen l).bind fun isOpen => pairing opens closes isOpen l' := by
  induction l generalizing isOpen with
  | nil => rfl
  | cons x l ih =>
    simp only [List.cons_append, pairing]
    split
    · exact ih
    · rfl

/-- What a list leaves open is decided by its last entry. -/
theorem pairing_last (h : pairing opens closes isOpen l = some isOpen') :
    isOpen' = (l.getLast?.map opens).getD isOpen := by
  induction l generalizing isOpen with
  | nil => exact (Option.some_inj.mp h).symm
  | cons x l ih =>
    simp only [pairing] at h
    split at h
    · rw [ih h]
      cases hlast : l.getLast? with
      | none =>
        rw [List.getLast?_eq_none_iff] at hlast
        subst hlast
        rfl
      | some y => rw [List.getLast?_cons, hlast]; rfl
    · cases h

/-- A list with an entry fits one way of starting only. -/
theorem pairing_start (hne : l ≠ []) (h : (pairing opens closes isOpen l).isSome)
    (h' : (pairing opens closes isOpen' l).isSome) : isOpen = isOpen' := by
  cases l with
  | nil => exact absurd rfl hne
  | cons x l =>
    simp only [pairing] at h h'
    split at h
    next hx =>
      split at h'
      next hx' => exact hx.1.symm.trans hx'.1
      next => cases h'
    next => cases h

/-- Only what opens and closes matters. -/
theorem pairing_congr (h : l.map (fun x => (opens x, closes x)) =
    l'.map fun x => (opens x, closes x)) :
    pairing opens closes isOpen l = pairing opens closes isOpen l' := by
  induction l generalizing l' isOpen with
  | nil =>
    rw [List.map_nil, eq_comm, List.map_eq_nil_iff] at h
    rw [h]
  | cons x l ih =>
    cases l' with
    | nil => cases h
    | cons y l' =>
      rw [List.map_cons, List.map_cons, List.cons.injEq, Prod.mk.injEq] at h
      obtain ⟨⟨hopens, hcloses⟩, hrest⟩ := h
      simp only [pairing, hopens, hcloses, ih hrest]

theorem Paired.append (h : Paired opens closes l) (h' : Paired opens closes l') :
    Paired opens closes (l ++ l') := by
  rw [Paired, pairing_append, h]
  exact h'

theorem cutAt_eq (hk : k ≤ l.length) :
    cutAt opens l k = ((l.take k).getLast?.map opens).getD false := by
  cases k with
  | zero => rfl
  | succ k =>
    rw [cutAt, List.take_add_one, List.getElem?_eq_getElem hk, Option.toList_some,
      List.getLast?_concat]
    rfl

/-- A paired list, read in two parts. -/
theorem Paired.split (h : Paired opens closes l) (hk : k ≤ l.length) :
    pairing opens closes false (l.take k) = some (cutAt opens l k) ∧
      pairing opens closes (cutAt opens l k) (l.drop k) = some false := by
  have hsplit : pairing opens closes false (l.take k ++ l.drop k) = some false := by
    rw [List.take_append_drop]
    exact h
  rw [pairing_append] at hsplit
  obtain ⟨b, hb, hrest⟩ := Option.bind_eq_some_iff.mp hsplit
  obtain rfl : b = cutAt opens l k := (pairing_last hb).trans (cutAt_eq hk).symm
  exact ⟨hb, hrest⟩

/-- A paired list goes between two parts of another one exactly where no pair is cut. -/
theorem pairing_mid (hmid : Paired opens closes mid) (hne : mid ≠ []) :
    pairing opens closes isOpen mid = if isOpen then none else some false := by
  cases isOpen with
  | false => exact hmid
  | true =>
    cases hsome : pairing opens closes true mid with
    | none => rfl
    | some b =>
      have hopen : (pairing opens closes true mid).isSome := by rw [hsome]; rfl
      have hclosed : (pairing opens closes false mid).isSome := by
        rw [show pairing opens closes false mid = some false from hmid]
        rfl
      cases pairing_start hne hopen hclosed

/-- The end of a paired list can follow no other way of starting. -/
theorem Paired.drop_iff (h : Paired opens closes l) (hk : k ≤ l.length) :
    pairing opens closes isOpen (l.drop k) = some false ↔ isOpen = cutAt opens l k := by
  obtain ⟨-, hrest⟩ := h.split hk
  constructor
  · intro hopen
    by_cases hnil : l.drop k = []
    · rw [hnil] at hopen hrest
      exact (Option.some_inj.mp hopen).trans (Option.some_inj.mp hrest).symm
    · exact pairing_start hnil (by rw [hopen]; rfl) (by rw [hrest]; rfl)
  · rintro rfl
    exact hrest

/-- Entries are exchanged for other ones. -/
theorem Paired.replace_iff (h : Paired opens closes l) (hlo : lo ≤ l.length) (hhi : hi ≤ l.length)
    (hmid : Paired opens closes mid) (hne : mid ≠ []) :
    Paired opens closes (l.take lo ++ mid ++ l.drop hi) ↔
      cutAt opens l lo = false ∧ cutAt opens l hi = false := by
  rw [Paired, pairing_append, pairing_append, (h.split hlo).1, Option.bind_some,
    pairing_mid hmid hne]
  cases cutAt opens l lo with
  | true => simp
  | false =>
    rw [if_neg Bool.false_ne_true, Option.bind_some, h.drop_iff hhi]
    exact ⟨fun hcut => ⟨rfl, hcut.symm⟩, fun hcut => hcut.2.symm⟩

/-- Entries are taken out, and others are put at the end. -/
theorem Paired.remove_iff (h : Paired opens closes l) (hlo : lo ≤ l.length) (hhi : hi ≤ l.length)
    (hmid : Paired opens closes mid) (hne : mid ≠ []) :
    Paired opens closes (l.take lo ++ l.drop hi ++ mid) ↔
      cutAt opens l lo = cutAt opens l hi := by
  rw [Paired, pairing_append, pairing_append, (h.split hlo).1, Option.bind_some, ← h.drop_iff hhi]
  constructor
  · intro hpaired
    obtain ⟨b, hb, hb'⟩ := Option.bind_eq_some_iff.mp hpaired
    rw [pairing_mid hmid hne] at hb'
    cases b with
    | false => exact hb
    | true => cases hb'
  · intro hrest
    rw [hrest]
    exact hmid

/-- Entries are put in, and those at the end are dropped. -/
theorem Paired.insert_iff (h : Paired opens closes l) (hlo : lo ≤ hi) (hhi : hi ≤ l.length)
    (hmid : Paired opens closes mid) (hne : mid ≠ []) :
    Paired opens closes (l.take lo ++ mid ++ (l.take hi).drop lo) ↔
      cutAt opens l lo = false ∧ cutAt opens l hi = false := by
  obtain ⟨hstart, -⟩ := h.split (Nat.le_trans hlo hhi)
  have hbetween : pairing opens closes (cutAt opens l lo) ((l.take hi).drop lo) =
      some (cutAt opens l hi) := by
    have hall := (h.split hhi).1
    rw [← List.take_append_drop lo (l.take hi), pairing_append, List.take_take,
      Nat.min_eq_left hlo, hstart] at hall
    exact hall
  rw [Paired, pairing_append, pairing_append, hstart, Option.bind_some, pairing_mid hmid hne]
  cases hcut : cutAt opens l lo with
  | true => simp
  | false =>
    rw [hcut] at hbetween
    rw [if_neg Bool.false_ne_true, Option.bind_some, hbetween]
    simp

/-- If a list leaves a pair open, then the pair of its last entry. -/
theorem paired_dropLast (h : pairing opens closes false l = some true) :
    Paired opens closes l.dropLast := by
  have hlast := pairing_last h
  cases hget : l.getLast? with
  | none =>
    rw [hget] at hlast
    cases hlast
  | some x =>
    have hopen : opens x = true := by
      rw [hget] at hlast
      exact hlast.symm
    rw [← List.dropLast_append_getLast? x hget, pairing_append] at h
    obtain ⟨isOpen, hinit, hx⟩ := Option.bind_eq_some_iff.mp h
    simp only [pairing] at hx
    split at hx
    next hplace =>
      -- the entry that opens is in its place, so no pair is open before it
      rw [hopen, Bool.and_true] at hplace
      rw [hplace.2] at hinit
      exact hinit
    next => cases hx

/-! ### Entry by entry -/

/-- An entry that opens is followed by one that closes, and one that closes follows one that
opens. -/
theorem Paired.next (h : Paired opens closes l) {i : ℕ} {x : α} (hx : l[i]? = some x) :
    (opens x = true → ∃ y, l[i + 1]? = some y ∧ closes y = true) ∧
      (closes x = true → ∃ j y, i = j + 1 ∧ l[j]? = some y ∧ opens y = true) := by
  have hi : i < l.length := (List.getElem?_eq_some_iff.mp hx).1
  have hget : l[i] = x := (List.getElem?_eq_some_iff.mp hx).2
  have hrest := (h.split (Nat.le_of_lt hi)).2
  rw [List.drop_eq_getElem_cons hi, hget] at hrest
  simp only [pairing] at hrest
  split at hrest
  next hplace =>
    constructor
    · intro hopen
      rw [hopen] at hrest
      cases hdrop : l.drop (i + 1) with
      | nil => simp [hdrop, pairing] at hrest
      | cons y ys =>
        rw [hdrop] at hrest
        simp only [pairing] at hrest
        split at hrest
        next hy =>
          refine ⟨y, ?_, hy.1⟩
          have hhead := congrArg List.head? hdrop
          rwa [List.head?_drop] at hhead
        next => cases hrest
    · intro hclose
      rw [hclose] at hplace
      cases i with
      | zero => cases hplace.1
      | succ j =>
        obtain ⟨y, hy, hopen⟩ := (Option.any_eq_true opens l[j]?).mp hplace.1.symm
        exact ⟨j, y, rfl, hy, hopen⟩
  next => cases hrest

end Ferrokey
