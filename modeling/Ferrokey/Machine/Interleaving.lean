import Mathlib.Data.List.Chain
import Mathlib.Data.List.Nodup
import Mathlib.Tactic.Common

/-! # Streams from several sources

Several sources put blocks of items into one stream. The stream is in order when it has
the items of every source as the source gave them, and every block in one piece. Items
may go ahead of items that were left over only if they come from other sources and no
block is cut in two.
-/

namespace Ferrokey.Machine

/-- An item with its source, its place among the items of the source, and whether a block
begins with it. -/
structure Item (σ α : Type*) where
  source : σ
  index : ℕ
  first : Bool
  value : α
  deriving DecidableEq, Repr

namespace Item

variable {σ α : Type*}

/-- The second item begins a block, or it continues the block of the first one. -/
def Follows (a b : Item σ α) : Prop :=
  b.first = true ∨ b.source = a.source ∧ b.index = a.index + 1

/-- A part of a stream that does not begin within a block. -/
def Begins (items : List (Item σ α)) : Prop := ∀ x ∈ items.head?, x.first = true

/-- Consecutive items of a source; a block may begin with the first one. -/
def number (s : σ) : Bool → ℕ → List α → List (Item σ α)
  | _, _, [] => []
  | first, n, v :: vs => ⟨s, n, first, v⟩ :: number s false (n + 1) vs

/-- A block that a source gives when it has given some items. -/
def block (s : σ) (n : ℕ) (values : List α) : List (Item σ α) := number s true n values

theorem begins_nil : Begins ([] : List (Item σ α)) := by
  intro x hx
  cases hx

theorem Begins.append {xs ys : List (Item σ α)} (hx : Begins xs) (hy : Begins ys) :
    Begins (xs ++ ys) := by
  cases xs with
  | nil => exact hy
  | cons x xs => exact hx

theorem begins_of_append {xs ys : List (Item σ α)} (h : Begins (xs ++ ys)) : Begins xs := by
  cases xs with
  | nil => exact begins_nil
  | cons x xs => exact h

/-- Two parts do not end alike if they end with parts that have nothing in common. -/
theorem getLast?_ne {a xs a' ys : List (Item σ α)} (hxs : xs ≠ [] ∨ a = []) (hys : ys ≠ [])
    (hd : xs.Disjoint ys) : (a ++ xs).getLast? ≠ (a' ++ ys).getLast? := by
  rw [List.getLast?_append_of_ne_nil _ hys, List.getLast?_eq_some_getLast hys]
  intro h
  have hlast : xs.getLast? = some (ys.getLast hys) := by
    rcases hxs with hne | rfl
    · rwa [List.getLast?_append_of_ne_nil _ hne] at h
    · exact h
  exact hd (List.mem_of_getLast? hlast) (List.getLast_mem hys)

section Numbers

variable (s : σ) (first : Bool) (n : ℕ) (values : List α)

theorem map_value_number : (number s first n values).map (·.value) = values := by
  induction values generalizing first n with
  | nil => rfl
  | cons v vs ih => exact congrArg (v :: ·) (ih false (n + 1))

theorem map_index_number :
    (number s first n values).map (·.index) = List.range' n values.length := by
  induction values generalizing first n with
  | nil => rfl
  | cons v vs ih => exact congrArg (n :: ·) (ih false (n + 1))

theorem length_number : (number s first n values).length = values.length := by
  rw [← List.length_map (·.value), map_value_number]

variable {s first n values}

theorem source_of_mem_number {x : Item σ α} (h : x ∈ number s first n values) : x.source = s := by
  induction values generalizing first n with
  | nil => cases h
  | cons v vs ih =>
    rcases List.mem_cons.mp h with rfl | h
    · rfl
    · exact ih h

theorem number_isChain : (number s first n values).IsChain Follows := by
  induction values generalizing first n with
  | nil => exact .nil
  | cons v vs ih =>
    cases vs with
    | nil => exact .singleton _
    | cons w ws => exact .cons_cons (.inr ⟨rfl, rfl⟩) ih

theorem le_index_of_mem_number {x : Item σ α} (h : x ∈ number s first n values) :
    n ≤ x.index := by
  have hmem : x.index ∈ (number s first n values).map (·.index) := List.mem_map_of_mem h
  rw [map_index_number, List.mem_range'_1] at hmem
  exact hmem.1

theorem first_of_mem_block {x : Item σ α} (h : x ∈ block s n values) (hindex : x.index = 0) :
    x.first = true := by
  cases values with
  | nil => cases h
  | cons v vs =>
    rcases List.mem_cons.mp h with rfl | h
    · rfl
    · have hle := le_index_of_mem_number h
      omega

theorem block_begins : Begins (block s n values) := by
  cases values with
  | nil => exact begins_nil
  | cons v vs =>
    rintro _ ⟨⟩
    rfl

end Numbers

/-! ### Streams in order -/

variable [DecidableEq σ]

/-- The items of one source. -/
def ofSource (s : σ) (items : List (Item σ α)) : List (Item σ α) :=
  items.filter (·.source = s)

/-- The sources count their items, and their first ones begin blocks. -/
structure Numbered (queued : List (Item σ α)) : Prop where
  indexes : ∀ s, (ofSource s queued).map (·.index) = List.range (ofSource s queued).length
  opens : ∀ x ∈ queued, x.index = 0 → x.first = true

/-- No item is lost, duplicated or overtaken by one of its source, and blocks are in one
piece. -/
structure InOrder (queued stream : List (Item σ α)) : Prop where
  complete : ∀ s, ofSource s stream = ofSource s queued
  pieces : stream.IsChain Follows

variable {queued stream : List (Item σ α)} {s : σ}

@[simp] theorem ofSource_append (xs ys : List (Item σ α)) :
    ofSource s (xs ++ ys) = ofSource s xs ++ ofSource s ys := List.filter_append ..

theorem mem_ofSource {x : Item σ α} {items : List (Item σ α)} :
    x ∈ ofSource s items ↔ x ∈ items ∧ x.source = s := by
  simp [ofSource]

theorem ofSource_eq_nil {items : List (Item σ α)} (h : ∀ x ∈ items, x.source ≠ s) :
    ofSource s items = [] := by
  simpa [ofSource] using h

theorem ofSource_self {items : List (Item σ α)} (h : ∀ x ∈ items, x.source = s) :
    ofSource s items = items := by
  simpa [ofSource] using h

theorem Numbered.nodup (hn : Numbered queued) (s : σ) :
    ((ofSource s queued).map (·.index)).Nodup := hn.indexes s ▸ List.nodup_range

/-- An item is known by its source and its place. -/
theorem Numbered.eq_of_place (hn : Numbered queued) {x y : Item σ α} (hx : x ∈ queued)
    (hy : y ∈ queued) (hsource : x.source = y.source) (hindex : x.index = y.index) : x = y :=
  List.inj_on_of_nodup_map (hn.nodup y.source) (mem_ofSource.mpr ⟨hx, hsource⟩)
    (mem_ofSource.mpr ⟨hy, rfl⟩) hindex

theorem InOrder.mem_iff (h : InOrder queued stream) {x : Item σ α} : x ∈ stream ↔ x ∈ queued := by
  have hx := congrArg (x ∈ ·) (h.complete x.source)
  simpa [mem_ofSource] using hx

namespace InOrder

variable (hn : Numbered queued) (h : InOrder queued stream)
include hn h

theorem nodup : stream.Nodup := by
  classical
  rw [List.nodup_iff_count_le_one]
  intro x
  calc stream.count x = (ofSource x.source stream).count x :=
        (List.count_filter (by simp)).symm
    _ = (ofSource x.source queued).count x := by rw [h.complete]
    _ ≤ 1 := List.nodup_iff_count_le_one.mp (hn.nodup x.source).of_map x

/-- What stands before an item that does not begin a block is the item of its source before
it. -/
theorem predecessor {a c : List (Item σ α)} {x : Item σ α} (hs : stream = a ++ x :: c)
    (hfirst : x.first = false) :
    ∃ y ∈ a.getLast?, x.source = y.source ∧ x.index = y.index + 1 := by
  have hmem : x ∈ stream := hs ▸ by simp
  have hchain := h.pieces
  rw [hs, List.isChain_append] at hchain
  cases hlast : a.getLast? with
  | none =>
    obtain rfl := List.getLast?_eq_none_iff.mp hlast
    have hindexes := hn.indexes x.source
    rw [← h.complete, hs] at hindexes
    have hzero : x.index = 0 := by
      simp only [ofSource, List.nil_append, decide_true, List.filter_cons_of_pos, List.map_cons,
        List.length_cons, List.range_succ_eq_map, List.cons.injEq] at hindexes
      exact hindexes.1
    exact absurd (hn.opens x (h.mem_iff.mp hmem) hzero) (by simp [hfirst])
  | some y =>
    have hfollows := hchain.2.2 y hlast x rfl
    rcases hfollows with hopens | hplace
    · exact absurd hopens (by simp [hfirst])
    · exact ⟨y, rfl, hplace⟩

end InOrder

/-! ### Blocks that are queued -/

theorem ofSource_block (s s' : σ) (n : ℕ) (values : List α) :
    ofSource s' (block s n values) = if s' = s then block s n values else [] := by
  split
  next hs => exact ofSource_self fun x hx => (source_of_mem_number hx).trans hs.symm
  next hs => exact ofSource_eq_nil fun x hx hx' => hs (hx'.symm.trans (source_of_mem_number hx))

theorem numbered_nil : Numbered ([] : List (Item σ α)) := ⟨fun _ => rfl, by simp⟩

theorem inOrder_nil : InOrder ([] : List (Item σ α)) [] := ⟨fun _ => rfl, .nil⟩

theorem Numbered.queue (hn : Numbered queued) (s : σ) (values : List α) :
    Numbered (queued ++ block s (ofSource s queued).length values) := by
  constructor
  · intro s'
    rw [ofSource_append, ofSource_block]
    split
    next hs =>
      subst hs
      rw [List.map_append, hn.indexes, block, map_index_number, List.length_append,
        length_number, List.range_add, List.range'_eq_map_range]
    next => simpa using hn.indexes s'
  · intro x hx hindex
    rcases List.mem_append.mp hx with hx | hx
    · exact hn.opens x hx hindex
    · exact first_of_mem_block hx hindex

/-- A block goes behind the items of its source, before a part that begins with a block. -/
theorem InOrder.queue {before after : List (Item σ α)} (h : InOrder queued (before ++ after))
    (s : σ) (hafter : ∀ x ∈ after, x.source ≠ s) (hbegins : Begins after) (values : List α) :
    InOrder (queued ++ block s (ofSource s queued).length values)
      (before ++ block s (ofSource s queued).length values ++ after) := by
  obtain ⟨hc₁, hc₂, -⟩ := List.isChain_append.mp h.pieces
  constructor
  · intro s'
    rw [ofSource_append, ofSource_append, ofSource_append, ofSource_block]
    have horder := h.complete s'
    rw [ofSource_append] at horder
    split
    next hs =>
      subst hs
      rw [ofSource_eq_nil hafter, List.append_nil] at horder
      rw [ofSource_eq_nil hafter, List.append_nil, horder]
    next => rw [List.append_nil, List.append_nil, horder]
  · exact (hc₁.append number_isChain fun _ _ y hy => .inl (block_begins y hy)).append hc₂
      fun _ _ y hy => .inl (hbegins y hy)

/-! ### Items that go ahead of others -/

/-- Items that are left over let others go ahead, of which some are left over too: unless
there are none, they come from other sources, and all that is left over begins with a block. -/
def Yields (left ahead behind : List (Item σ α)) : Prop :=
  left = [] ∨ ahead = [] ∨
    (∀ x ∈ left, ∀ y ∈ ahead, x.source ≠ y.source) ∧ Begins left ∧ Begins behind

variable {sent left ahead behind later : List (Item σ α)}

theorem ofSource_comm (h : ∀ x ∈ left, ∀ y ∈ ahead, x.source ≠ y.source) (s : σ) :
    ofSource s ahead ++ ofSource s left = ofSource s left ++ ofSource s ahead := by
  cases hleft : ofSource s left with
  | nil => simp
  | cons x xs =>
    obtain ⟨hx, rfl⟩ := mem_ofSource.mp (hleft ▸ List.mem_cons_self : x ∈ ofSource s left)
    rw [ofSource_eq_nil fun y hy => (h x hx y hy).symm, List.nil_append, List.append_nil]

theorem InOrder.yield (h : InOrder queued (sent ++ left ++ ahead ++ (behind ++ later)))
    (hahead : Begins ahead) (hlater : Begins later) (hy : Yields left ahead behind) :
    InOrder queued (sent ++ ahead ++ left ++ (behind ++ later)) := by
  rcases hy with rfl | rfl | ⟨hsources, hleft, hbehind⟩
  · simpa using h
  · simpa using h
  · have hrest := hbehind.append hlater
    obtain ⟨hc, hc₄, -⟩ := List.isChain_append.mp h.pieces
    obtain ⟨hc, hc₃, -⟩ := List.isChain_append.mp hc
    obtain ⟨hc₁, hc₂, -⟩ := List.isChain_append.mp hc
    constructor
    · intro s
      rw [← h.complete s]
      simp only [ofSource_append, List.append_assoc]
      rw [← List.append_assoc (ofSource s ahead), ofSource_comm hsources, List.append_assoc]
    · exact ((hc₁.append hc₃ fun _ _ y hy => .inl (hahead y hy)).append hc₂
        fun _ _ y hy => .inl (hleft y hy)).append hc₄ fun _ _ y hy => .inl (hrest y hy)

/-- A part that stands after different items in two streams in order begins with a block. -/
theorem InOrder.begins (hn : Numbered queued) {a a' b c c' : List (Item σ α)}
    (h : InOrder queued (a ++ b ++ c)) (h' : InOrder queued (a' ++ b ++ c'))
    (hne : a.getLast? ≠ a'.getLast?) : Begins b := by
  cases b with
  | nil => exact begins_nil
  | cons x b =>
    rintro _ ⟨⟩
    by_contra hfirst
    rw [Bool.not_eq_true] at hfirst
    obtain ⟨y, hy, hsource, hindex⟩ :=
      h.predecessor hn (a := a) (c := b ++ c) (by simp) hfirst
    obtain ⟨y', hy', hsource', hindex'⟩ :=
      h'.predecessor hn (a := a') (c := b ++ c') (by simp) hfirst
    have hmem : y ∈ queued := h.mem_iff.mp (by simp [List.mem_of_getLast? hy])
    have hmem' : y' ∈ queued := h'.mem_iff.mp (by simp [List.mem_of_getLast? hy'])
    obtain rfl : y = y' :=
      hn.eq_of_place hmem hmem' (hsource.symm.trans hsource') (by omega)
    exact hne (hy.trans hy'.symm)

/-- Two parts of which each comes first once have no source in common. -/
theorem sources_ne_of_swap {s : σ} {xs ys : List (Item σ α)} (hnodup : (xs ++ ys).Nodup)
    (h : ofSource s xs ++ ofSource s ys = ofSource s ys ++ ofSource s xs) :
    ofSource s xs = [] ∨ ofSource s ys = [] := by
  by_contra hne
  obtain ⟨hxs, hys⟩ := not_or.mp hne
  obtain ⟨x, xs', hx⟩ := List.exists_cons_of_ne_nil hxs
  obtain ⟨y, ys', hy⟩ := List.exists_cons_of_ne_nil hys
  rw [hx, hy] at h
  obtain ⟨rfl, -⟩ := List.cons_eq_cons.mp h
  have hmem : x ∈ xs := (mem_ofSource.mp (hx ▸ List.mem_cons_self)).1
  have hmem' : x ∈ ys := (mem_ofSource.mp (hy ▸ List.mem_cons_self)).1
  exact List.disjoint_of_nodup_append hnodup hmem hmem'

/-- If the items that went ahead left the stream in order, the items left over let them. The
items after them went ahead too, or were left over. -/
theorem InOrder.yields (hn : Numbered queued) {next rest : List (Item σ α)}
    (h : InOrder queued (sent ++ left ++ ahead ++ (behind ++ (next ++ rest))))
    (h' : InOrder queued (sent ++ ahead ++ next ++ left ++ (behind ++ rest)))
    (hnext : ∀ y ∈ ahead, ∀ v ∈ next ++ rest, v.source ≠ y.source) : Yields left ahead behind := by
  by_contra hy
  obtain ⟨hleft, hahead, hy⟩ := by simpa only [Yields, not_or] using hy
  have hnodup := h.nodup hn
  have hswap : (left ++ ahead).Nodup := by
    rw [List.append_assoc sent] at hnodup
    exact hnodup.of_append_left.of_append_right
  refine hy ⟨?_, ?_, ?_⟩
  · intro x hx y hmem hsource
    have hnone (z : Item σ α) (hz : z ∈ next ++ rest) : z.source ≠ y.source := hnext y hmem z hz
    have hnext' : ofSource y.source next = [] :=
      ofSource_eq_nil fun z hz => hnone z (List.mem_append_left rest hz)
    have hrest : ofSource y.source rest = [] :=
      ofSource_eq_nil fun z hz => hnone z (List.mem_append_right next hz)
    have horder := (h.complete y.source).trans (h'.complete y.source).symm
    simp only [ofSource_append, hnext', hrest, List.append_nil, List.nil_append,
      List.append_assoc] at horder
    rw [List.append_cancel_left_eq, ← List.append_assoc, ← List.append_assoc,
      List.append_cancel_right_eq] at horder
    rcases sources_ne_of_swap hswap horder with hnil | hnil
    · exact List.not_mem_nil (hnil ▸ mem_ofSource.mpr ⟨hx, hsource⟩)
    · exact List.not_mem_nil (hnil ▸ mem_ofSource.mpr ⟨hmem, rfl⟩)
  · have hd : sent.Disjoint (ahead ++ next) := by
      rw [List.append_assoc, List.append_assoc] at hnodup
      refine List.disjoint_of_subset_right ?_ (List.disjoint_of_nodup_append hnodup)
      intro z hz
      rcases List.mem_append.mp hz with hz | hz <;> simp [hz]
    have hlast : ([] ++ sent).getLast? ≠ (sent ++ (ahead ++ next)).getLast? :=
      getLast?_ne (.inr rfl) (by simp [hahead]) hd
    rw [List.append_assoc (sent ++ left)] at h
    rw [List.append_assoc sent ahead] at h'
    exact h.begins hn h' hlast
  · have hlast : (sent ++ left ++ ahead).getLast? ≠ (sent ++ ahead ++ next ++ left).getLast? :=
      getLast?_ne (.inl hahead) hleft fun _ hx hy => List.disjoint_of_nodup_append hswap hy hx
    rw [← List.append_assoc (sent ++ left ++ ahead)] at h
    rw [← List.append_assoc (sent ++ ahead ++ next ++ left)] at h'
    exact h.begins hn h' hlast

end Item

end Ferrokey.Machine
