import Ferrokey.Terminal.Combining
import Ferrokey.Terminal.Dispatch

/-! # Colours

A cell keeps its colour as a number, without a tag for its kind. The numbers of the
default, of the basic colours and of the indexed ones are numbers of true colours, too,
and those are not read back as what they were.
-/

set_option linter.dupNamespace false

namespace Ferrokey.Terminal

/-- A colour of 24 bits. -/
structure Color where
  r : UInt8
  g : UInt8
  b : UInt8
  deriving DecidableEq, Repr

namespace Color

/-- The number `0xRRGGBB`. -/
def packed (c : Color) : UInt32 := c.r.toUInt32 <<< 16 ||| c.g.toUInt32 <<< 8 ||| c.b.toUInt32

def fromPacked (packed : UInt32) : Color :=
  ⟨(packed >>> 16).toUInt8, (packed >>> 8).toUInt8, packed.toUInt8⟩

theorem toNat_packed (c : Color) :
    c.packed.toNat = c.r.toNat * 65536 + c.g.toNat * 256 + c.b.toNat := by
  have hr := c.r.toNat_lt
  have hg := c.g.toNat_lt
  have hb := c.b.toNat_lt
  have hlow : c.g.toNat <<< 8 ||| c.b.toNat = c.g.toNat * 256 + c.b.toNat := by
    rw [← Nat.shiftLeft_add_eq_or_of_lt hb, Nat.shiftLeft_eq]
  have hhigh : c.r.toNat <<< 16 ||| (c.g.toNat * 256 + c.b.toNat) =
      c.r.toNat * 65536 + (c.g.toNat * 256 + c.b.toNat) := by
    rw [← Nat.shiftLeft_add_eq_or_of_lt (by omega), Nat.shiftLeft_eq]
  have hred : c.r.toNat <<< 16 % 2 ^ 32 = c.r.toNat <<< 16 := by
    rw [Nat.shiftLeft_eq]
    omega
  have hgreen : c.g.toNat <<< 8 % 2 ^ 32 = c.g.toNat <<< 8 := by
    rw [Nat.shiftLeft_eq]
    omega
  simp only [packed, UInt32.toNat_or, UInt32.toNat_shiftLeft, UInt8.toNat_toUInt32,
    UInt32.reduceToNat, Nat.reduceMod, hred, hgreen, Nat.or_assoc, hlow, hhigh, Nat.add_assoc]

theorem fromPacked_packed (c : Color) : fromPacked c.packed = c := by
  have hr := c.r.toNat_lt
  have hg := c.g.toNat_lt
  have hb := c.b.toNat_lt
  have hpacked := c.toNat_packed
  obtain ⟨r, g, b⟩ := c
  simp only [fromPacked, mk.injEq, ← UInt8.toNat_inj, UInt32.toNat_toUInt8,
    UInt32.toNat_shiftRight, UInt32.reduceToNat, Nat.reduceMod, Nat.shiftRight_eq_div_pow,
    Nat.reducePow]
  simp only at hr hg hb hpacked
  omega

end Color

/-- The colours that the numbers of cells stand for. -/
structure Palette where
  bg : Color
  fg : Color
  /-- The basic colours, the bright ones last. -/
  ansi : Fin 16 → Color

/-- The steps of the colour cube. -/
def ramp : ℕ → UInt8
  | 0 => 0
  | 1 => 95
  | 2 => 135
  | 3 => 175
  | 4 => 215
  | _ => 255

namespace Palette

variable (p : Palette)

/-- The basic colours, a cube of colours and a scale of grays. -/
def index (idx : ℕ) : Color :=
  if idx ≤ 15 then p.ansi (Fin.ofNat 16 idx)
  else if idx ≤ 231 then
    let i := idx - 16
    ⟨ramp (i / 36 % 6), ramp (i / 6 % 6), ramp (i % 6)⟩
  else
    let v := UInt8.ofNat (8 + (idx - 232) * 10)
    ⟨v, v, v⟩

/-- The foreground of a cell; a bold one is bright. -/
def resolveFg (packed : UInt32) (bold : Bool) : Color :=
  if packed = 0 then p.fg
  else if packed ≤ 16 then
    let idx := (packed - 1).toNat
    if bold ∧ idx < 8 then p.ansi (Fin.ofNat 16 (idx + 8)) else p.ansi (Fin.ofNat 16 idx)
  else if 0x200 ≤ packed ∧ packed ≤ 0x2FF then p.index (packed &&& 0xFF).toNat
  else .fromPacked packed

def resolveBg (packed : UInt32) : Color :=
  if packed = 0 then p.bg
  else if packed ≤ 16 then p.ansi (Fin.ofNat 16 (packed - 1).toNat)
  else if 0x200 ≤ packed ∧ packed ≤ 0x2FF then p.index (packed &&& 0xFF).toNat
  else .fromPacked packed

end Palette

/-- What the number of a cell is read as. -/
inductive CellColor where
  | standard
  | ansi (i : Fin 16)
  | indexed (n : UInt8)
  | rgb (color : Color)
  deriving DecidableEq

namespace CellColor

def decode (packed : UInt32) : CellColor :=
  if packed = 0 then .standard
  else if packed ≤ 16 then .ansi (Fin.ofNat 16 (packed - 1).toNat)
  else if 0x200 ≤ packed ∧ packed ≤ 0x2FF then .indexed packed.toUInt8
  else .rgb (.fromPacked packed)

/-- The colour in a palette, with the one that stands for the default. -/
def onPalette (p : Palette) (standard : Color) : CellColor → Color
  | .standard => standard
  | .ansi i => p.ansi i
  | .indexed n => p.index n.toNat
  | .rgb color => color

variable {p : Palette} {packed : UInt32}

theorem toNat_and_byte (packed : UInt32) : (packed &&& 0xFF).toNat = packed.toUInt8.toNat := by
  rw [UInt32.toNat_and, UInt32.toNat_toUInt8]
  exact Nat.and_two_pow_sub_one_eq_mod packed.toNat 8

theorem resolveFg_eq : p.resolveFg packed false = (decode packed).onPalette p p.fg := by
  unfold Palette.resolveFg decode
  simp only [toNat_and_byte, Bool.false_eq_true, false_and, if_false]
  split_ifs <;> rfl

theorem resolveBg_eq : p.resolveBg packed = (decode packed).onPalette p p.bg := by
  unfold Palette.resolveBg decode
  simp only [toNat_and_byte]
  split_ifs <;> rfl

theorem decode_of_rgb (hlow : 16 < packed.toNat)
    (hrange : ¬ (512 ≤ packed.toNat ∧ packed.toNat ≤ 767)) :
    decode packed = .rgb (.fromPacked packed) := by
  have hzero : packed ≠ 0 := by
    rintro rfl
    simp at hlow
  have hansi : ¬ packed ≤ 16 := fun hle => absurd (UInt32.le_iff_toNat_le.mp hle) (not_le.mpr hlow)
  have hindex : ¬ (0x200 ≤ packed ∧ packed ≤ 0x2FF) := by
    rintro ⟨hge, hle⟩
    exact hrange ⟨UInt32.le_iff_toNat_le.mp hge, UInt32.le_iff_toNat_le.mp hle⟩
  rw [decode, if_neg hzero, if_neg hansi, if_neg hindex]

/-- Which numbers are read as true colours. -/
theorem decode_rgb_iff : (∃ c, decode packed = .rgb c) ↔
    16 < packed.toNat ∧ ¬ (512 ≤ packed.toNat ∧ packed.toNat ≤ 767) := by
  constructor
  · rintro ⟨c, hc⟩
    unfold decode at hc
    split at hc
    · cases hc
    split at hc
    · cases hc
    next hansi =>
      split at hc
      · cases hc
      next hindex =>
        rw [UInt32.le_iff_toNat_le, not_le] at hansi
        rw [UInt32.le_iff_toNat_le, UInt32.le_iff_toNat_le] at hindex
        exact ⟨hansi, hindex⟩
  · rintro ⟨hlow, hrange⟩
    exact ⟨_, decode_of_rgb hlow hrange⟩

/-- The number of a true colour is not that of another kind. -/
theorem decode_packed_iff (c : Color) : (∃ c', decode c.packed = .rgb c') ↔
    ¬ (c.r = 0 ∧ (c.g = 0 ∧ c.b ≤ 16 ∨ c.g = 2)) := by
  have hg := c.g.toNat_lt
  have hb := c.b.toNat_lt
  rw [decode_rgb_iff, c.toNat_packed, ← UInt8.toNat_inj, ← UInt8.toNat_inj, ← UInt8.toNat_inj,
    UInt8.le_iff_toNat_le]
  simp only [UInt8.reduceToNat]
  omega

theorem decode_indexed (n : UInt8) : decode (0x200 ||| UInt32.ofNat n.toNat) = .indexed n := by
  have hn := n.toNat_lt
  have hnat : (0x200 ||| UInt32.ofNat n.toNat).toNat = 512 + n.toNat := by
    have hcode : (UInt32.ofNat n.toNat).toNat = n.toNat := by
      rw [UInt32.toNat_ofNat']
      omega
    rw [UInt32.toNat_or, hcode]
    exact (Nat.shiftLeft_add_eq_or_of_lt hn 2).symm
  have hzero : ¬ (0x200 ||| UInt32.ofNat n.toNat) = 0 := by
    rw [← UInt32.toNat_inj, hnat]
    simp
  have hansi : ¬ (0x200 ||| UInt32.ofNat n.toNat) ≤ 16 := by
    rw [UInt32.le_iff_toNat_le, hnat]
    simp only [UInt32.reduceToNat]
    omega
  have hindex : 0x200 ≤ (0x200 ||| UInt32.ofNat n.toNat) ∧
      (0x200 ||| UInt32.ofNat n.toNat) ≤ 0x2FF := by
    rw [UInt32.le_iff_toNat_le, UInt32.le_iff_toNat_le, hnat]
    simp only [UInt32.reduceToNat]
    omega
  have hbyte : (0x200 ||| UInt32.ofNat n.toNat).toUInt8 = n := by
    rw [← UInt8.toNat_inj, UInt32.toNat_toUInt8, hnat]
    omega
  rw [decode, if_neg hzero, if_neg hansi, if_pos hindex, hbyte]

end CellColor

/-! ### Cells that are printed in a colour -/

/-- What a colour is for. -/
inductive Layer where
  | foreground
  | background
  deriving DecidableEq

namespace Layer

/-- The code that a colour comes after. -/
def code : Layer → ℕ
  | .foreground => 38
  | .background => 48

/-- The number that a cell has. -/
def packed (cell : Cell) : Layer → UInt32
  | .foreground => cell.fg
  | .background => cell.bg

/-- The colour that a cell is painted in. -/
def resolve (p : Palette) (cell : Cell) : Layer → Color
  | .foreground => p.resolveFg cell.fg (cell.flags.contains CellFlags.bold)
  | .background => p.resolveBg cell.bg

def standard (p : Palette) : Layer → Color
  | .foreground => p.fg
  | .background => p.bg

theorem resolve_eq {cell : Cell} (hbold : cell.flags.contains CellFlags.bold = false)
    (p : Palette) (layer : Layer) : layer.resolve p cell =
      (CellColor.decode (layer.packed cell)).onPalette p (layer.standard p) := by
  cases layer with
  | foreground =>
    rw [resolve, hbold]
    exact CellColor.resolveFg_eq
  | background => exact CellColor.resolveBg_eq

end Layer

namespace Terminal

variable {t : Terminal} {tables : UnicodeTables} {ch : Char}

/-- `CSI … m`. -/
def setRendition (params : List ℕ) : Csi := ⟨0, params, [], 0x6D⟩

/-- A glyph that is printed in a rendition is in a cell with a property. -/
def Prints (t : Terminal) (tables : UnicodeTables) (params : List ℕ) (ch : Char)
    (P : Cell → Prop) : Prop :=
  Returns (t.applyAll tables [.csi (setRendition params), .print ch]) fun t' => ∃ cell,
    t'.grid.cellAt (t.grid.wrapped ((tables.width ch).getD 0)).cursor.row
      (t.grid.wrapped ((tables.width ch).getD 0)).cursor.col = some cell ∧ P cell

/-- The colours that are asked for are those that are seen. -/
structure FaithfulColours (t : Terminal) (tables : UnicodeTables) (ch : Char) (c : Color)
    (n : UInt8) : Prop where
  truecolour : ∀ layer : Layer,
    t.Prints tables [layer.code, 2, c.r.toNat, c.g.toNat, c.b.toNat] ch fun cell =>
      (∀ p : Palette, layer.resolve p cell = c) ∧
        ∃ c', CellColor.decode (layer.packed cell) = .rgb c'
  indexed : ∀ layer : Layer, t.Prints tables [layer.code, 5, n.toNat] ch fun cell =>
    ∀ p : Palette, layer.resolve p cell = p.index n.toNat

theorem prints_iff (h : t.Valid) {width : ℕ} (hwidth : (tables.width ch).getD 0 = width)
    (hw : width = 1 ∨ width = 2) (params : List ℕ) (P : Cell → Prop) :
    t.Prints tables params ch P ↔ P (Grid.glyphCell (sgr params t.attrs) ch width) := by
  obtain ⟨c, r, c₀, r₀, hs⟩ := h.sizes
  obtain ⟨⟨g, scrolled⟩, hprint, hcell⟩ :=
    hs.grid.print_cellAt hwidth hw (sgr params t.attrs)
  have hcsi : t.apply tables (.csi (setRendition params)) =
      some { t with attrs := sgr params t.attrs } := rfl
  have hchar : ({ t with attrs := sgr params t.attrs } : Terminal).apply tables (.print ch) =
      some (pushAll { t with
        attrs := sgr params t.attrs, lastChar := some ch, grid := g } scrolled.toList) := by
    simp only [Terminal.apply, printChar, scrolling, hprint, Option.bind_eq_bind,
      Option.bind_some]
  have happly : t.applyAll tables [.csi (setRendition params), .print ch] =
      some (pushAll { t with
        attrs := sgr params t.attrs, lastChar := some ch, grid := g } scrolled.toList) := by
    simp only [applyAll, List.foldlM_cons, List.foldlM_nil, hcsi, hchar, Option.bind_eq_bind,
      Option.bind_some, Option.pure_def]
  rw [Prints, happly, hwidth]
  constructor
  · rintro ⟨t', ht', cell, hat, hP⟩
    cases ht'
    rw [pushAll_grid, hcell] at hat
    cases hat
    exact hP
  · intro hP
    exact .pure ⟨_, by rw [pushAll_grid, hcell], hP⟩

theorem glyphCell_bold (a : CellAttrs) (ch : Char) (width : ℕ) :
    (Grid.glyphCell a ch width).flags.contains CellFlags.bold =
      a.flags.contains CellFlags.bold := by
  unfold Grid.glyphCell
  split
  · exact a.flags.contains_set (by decide) (by decide) true
  · rfl

theorem packed_glyphCell (layer : Layer) (a : CellAttrs) (ch : Char) (width : ℕ) :
    layer.packed (Grid.glyphCell a ch width) = layer.packed (Grid.makeCell ch a) := by
  unfold Grid.glyphCell
  split
  · cases layer <;> rfl
  · rfl

/-- What a colour sets, and that nothing makes it bold. -/
theorem sgr_truecolour (ch : Char) (layer : Layer) (c : Color) (a : CellAttrs) :
    layer.packed (Grid.makeCell ch
      (sgr [layer.code, 2, c.r.toNat, c.g.toNat, c.b.toNat] a)) = c.packed ∧
        (sgr [layer.code, 2, c.r.toNat, c.g.toNat, c.b.toNat] a).flags = a.flags := by
  have hpacked : UInt32.ofNat c.r.toNat <<< 16 ||| UInt32.ofNat c.g.toNat <<< 8 |||
      UInt32.ofNat c.b.toNat = c.packed := by
    simp only [UInt32.ofNat_uInt8ToNat, Color.packed]
  cases layer with
  | foreground => exact ⟨hpacked, rfl⟩
  | background => exact ⟨hpacked, rfl⟩

theorem sgr_indexed (ch : Char) (layer : Layer) (n : UInt8) (a : CellAttrs) :
    layer.packed (Grid.makeCell ch (sgr [layer.code, 5, n.toNat] a)) =
        0x200 ||| UInt32.ofNat n.toNat ∧
      (sgr [layer.code, 5, n.toNat] a).flags = a.flags := by
  cases layer with
  | foreground => exact ⟨rfl, rfl⟩
  | background => exact ⟨rfl, rfl⟩

/-- Colours are seen as they are asked for exactly if the number of the true colour is not that of
the default, a basic or an indexed one. -/
theorem faithfulColours_iff (h : t.Valid) (hbold : t.attrs.flags.contains CellFlags.bold = false)
    (hwidth : (tables.width ch).getD 0 = 1 ∨ (tables.width ch).getD 0 = 2) (c : Color)
    (n : UInt8) : t.FaithfulColours tables ch c n ↔
      ¬ (c.r = 0 ∧ (c.g = 0 ∧ c.b ≤ 16 ∨ c.g = 2)) := by
  rw [← CellColor.decode_packed_iff]
  constructor
  · intro hf
    obtain ⟨-, hrgb⟩ := (prints_iff h rfl hwidth _ _).mp (hf.truecolour .foreground)
    rwa [packed_glyphCell, (sgr_truecolour ch .foreground c t.attrs).1] at hrgb
  · rintro ⟨c', hc'⟩
    have hown : CellColor.decode c.packed = .rgb c := by
      obtain ⟨hlow, hrange⟩ := CellColor.decode_rgb_iff.mp ⟨c', hc'⟩
      rw [CellColor.decode_of_rgb hlow hrange, c.fromPacked_packed]
    constructor
    · intro layer
      obtain ⟨hpacked, hflags⟩ := sgr_truecolour ch layer c t.attrs
      refine (prints_iff h rfl hwidth _ _).mpr ⟨fun p => ?_, c, ?_⟩
      · rw [Layer.resolve_eq (by rw [glyphCell_bold, hflags, hbold]), packed_glyphCell, hpacked,
          hown]
        rfl
      · rw [packed_glyphCell, hpacked, hown]
    · intro layer
      obtain ⟨hpacked, hflags⟩ := sgr_indexed ch layer n t.attrs
      refine (prints_iff h rfl hwidth _ _).mpr fun p => ?_
      rw [Layer.resolve_eq (by rw [glyphCell_bold, hflags, hbold]), packed_glyphCell, hpacked,
        CellColor.decode_indexed]
      rfl

theorem new_faithfulColours_iff : ∃ t, Terminal.new .default fontCells = .ok t ∧
    (t.FaithfulColours asciiTables 'x' ⟨255, 128, 0⟩ 196 ↔
      ¬ ((255 : UInt8) = 0 ∧ ((128 : UInt8) = 0 ∧ (0 : UInt8) ≤ 16 ∨ (128 : UInt8) = 2))) := by
  obtain ⟨t, ht⟩ : ∃ t, Terminal.new .default fontCells = .ok t := ⟨_, rfl⟩
  refine ⟨t, ht, faithfulColours_iff (new_valid ht) ?_ (.inl rfl) ⟨255, 128, 0⟩ 196⟩
  cases ht
  rfl

/-- Black that is asked for is the default, whatever that is. -/
theorem black_not_faithful : ∃ t, Terminal.new .default fontCells = .ok t ∧
    ¬ t.FaithfulColours asciiTables 'x' ⟨0, 0, 0⟩ 196 := by
  refine ⟨_, rfl, fun h => ?_⟩
  obtain ⟨t', ht', cell, hcell, hresolve, -⟩ := h.truecolour .foreground
  cases ht'
  cases hcell
  exact absurd (hresolve ⟨⟨0, 0, 0⟩, ⟨1, 1, 1⟩, fun _ => ⟨0, 0, 0⟩⟩) (by decide)

end Terminal

end Ferrokey.Terminal
