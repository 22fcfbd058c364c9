import Mathlib.Algebra.Order.Field.Rat
import Mathlib.Data.Finset.Lattice.Fold
import Mathlib.Data.Fintype.Basic
import Mathlib.Data.List.ProdSigma
import Mathlib.Data.Nat.Size
import Mathlib.Order.Lattice.Nat
import Mathlib.Tactic.FieldSimp
import Mathlib.Tactic.Linarith
import Mathlib.Tactic.Ring

/-! # The glyph atlas of `Font_freetype.cpp`

The texture that `Font::Data::load` makes of the bitmaps of 256 characters, and the quads that
`Font::draw` maps it to. What FreeType renders is an input, coordinates in the texture are exact, and
positions on the screen are unbounded. -/
namespace Fimbulwinter.GlyphAtlas

inductive Fault
  | divisionByZero
  /-- An `int` overflows. -/
  | overflow
  /-- The loop over the sizes of the texture does not end. -/
  | endless
  /-- The parameters of a character that there is not. -/
  | outOfRange
  /-- The text ends without a null. -/
  | unterminated
  deriving DecidableEq, Repr

/-- A rendered character. -/
structure Glyph where
  width : ℕ
  rows : ℕ
  buffer : ℕ → UInt8
  bitmapLeft : ℤ
  bitmapTop : ℤ
  advanceX : ℤ
  advanceY : ℤ

/-- `Param` -/
structure Param where
  bitmapLeft : ℤ
  bitmapTop : ℤ
  advanceX : ℤ
  advanceY : ℤ
  deriving DecidableEq, Repr

/-- `Font::Data`; of the pixels, their number and what is written to which of them. -/
structure Data where
  maxBitmapWidth : ℕ
  maxBitmapHeight : ℕ
  textureSize : ℕ
  pixels : ℕ
  writes : List (ℕ × UInt8)
  params : Fin 256 → Param

/-! ## Loading -/

/-- `utility::clp2` in 32-bit arithmetic, which is what `smallest_power_of_two` returns. -/
def smallestPowerOfTwo (x : ℕ) : ℕ :=
  let x := (x + (2 ^ 32 - 1)) % 2 ^ 32
  let x := x ||| (x >>> 1)
  let x := x ||| (x >>> 2)
  let x := x ||| (x >>> 4)
  let x := x ||| (x >>> 8)
  let x := x ||| (x >>> 16)
  (x + 1) % 2 ^ 32

/-- `debug_cast<int16_t>` -/
def int16 (n : ℤ) : ℤ := Int.bmod n 65536

/-- The greatest of sizes, each in 16 bits; it starts at zero, and so never is negative. -/
def maxBitmap (sizes : List ℕ) : ℕ := sizes.foldl (fun m (n : ℕ) => max (int16 n).toNat m) 0

/-- The loop over the sizes of the texture. -/
def sizeTexture (w h : ℕ) : ℕ → ℕ → Except Fault ℕ
  | 0, _ => .error .endless
  | fuel + 1, textureSize =>
    if 2 ^ 31 ≤ textureSize / w * (textureSize / h) then .error .overflow
    else if 256 ≤ textureSize / w * (textureSize / h) then .ok textureSize
    else if 2 ^ 31 ≤ textureSize * 2 then .error .overflow
    else sizeTexture w h fuel (textureSize * 2)

/-- The pixels of the bitmaps, in the order in which they are written: character, `y` and `x`. -/
def cells (glyphs : Fin 256 → Glyph) : List (Fin 256 × ℕ × ℕ) :=
  (List.finRange 256).flatMap fun i =>
    (List.range (glyphs i).rows ×ˢ List.range (glyphs i).width).map fun c => (i, c.1, c.2)

def pixelOffset (w h textureSize i : ℕ) : ℕ :=
  let maxNumberOfBitmapsInX := textureSize / w
  let bitmapSlotX := i % maxNumberOfBitmapsInX
  let bitmapSlotY := i / maxNumberOfBitmapsInX
  bitmapSlotX * w + bitmapSlotY * h * textureSize

def Glyph.param (g : Glyph) : Param :=
  ⟨int16 g.bitmapLeft, int16 g.bitmapTop, int16 (g.advanceX / 2 ^ 6), int16 (g.advanceY / 2 ^ 6)⟩

/-- The pixels and the parameters, once the size of the texture is found. -/
def fill (glyphs : Fin 256 → Glyph) (w h textureSize : ℕ) : Data where
  maxBitmapWidth := w
  maxBitmapHeight := h
  textureSize := textureSize
  pixels := textureSize * textureSize
  writes := (cells glyphs).map fun (i, y, x) =>
    (pixelOffset w h textureSize i + x + y * textureSize,
      (glyphs i).buffer (x + y * (glyphs i).width))
  params := fun i => (glyphs i).param

/-- `Font::Data::load`, when everything can be rendered. -/
def load (glyphs : Fin 256 → Glyph) : Except Fault Data :=
  let w := maxBitmap ((List.finRange 256).map fun i => (glyphs i).width)
  let h := maxBitmap ((List.finRange 256).map fun i => (glyphs i).rows)
  if 2 ^ 31 ≤ w * h * 256 then .error .overflow
  else if w = 0 ∨ h = 0 then .error .divisionByZero
  else
    match sizeTexture w h 32 (smallestPowerOfTwo (Nat.sqrt (w * h * 256))) with
    | .error e => .error e
    | .ok textureSize =>
      if 2 ^ 31 ≤ textureSize * textureSize then .error .overflow
      else .ok (fill glyphs w h textureSize)

/-- The slot of a character in the texture. -/
def Data.InSlot (data : Data) (i x y : ℕ) : Prop :=
  let maxNumberOfBitmapsInX := data.textureSize / data.maxBitmapWidth
  let left := i % maxNumberOfBitmapsInX * data.maxBitmapWidth
  let top := i / maxNumberOfBitmapsInX * data.maxBitmapHeight
  (left ≤ x ∧ x < left + data.maxBitmapWidth) ∧ top ≤ y ∧ y < top + data.maxBitmapHeight

/-- What should hold of the texture. -/
structure Loaded (glyphs : Fin 256 → Glyph) (data : Data) : Prop where
  apart : ∀ i j : Fin 256, i ≠ j → ∀ x y, ¬ (data.InSlot i x y ∧ data.InSlot j x y)
  inside : ∀ (i : Fin 256) (x y : ℕ), data.InSlot i x y →
    x < data.textureSize ∧ y < data.textureSize
  /-- Slots are large enough for what is written to them. -/
  holds : ∀ i, (glyphs i).width ≤ data.maxBitmapWidth ∧ (glyphs i).rows ≤ data.maxBitmapHeight
  once : (data.writes.map Prod.fst).Nodup
  bounded : ∀ k ∈ data.writes.map Prod.fst, k < data.pixels

/-! ## The smallest power of two -/

/-- Every bit spreads to the `m` places from its own downwards. -/
def Spreads (m x y : ℕ) : Prop := ∀ j, y.testBit j = true ↔ ∃ d < m, x.testBit (j + d) = true

theorem spreads_one (x : ℕ) : Spreads 1 x x := fun j =>
  ⟨fun h => ⟨0, Nat.one_pos, h⟩, fun ⟨d, hd, h⟩ => by
    obtain rfl := Nat.lt_one_iff.mp hd
    exact h⟩

theorem Spreads.double {m x y : ℕ} (h : Spreads m x y) : Spreads (m + m) x (y ||| (y >>> m)) := by
  intro j
  rw [Nat.testBit_or, Nat.testBit_shiftRight, Bool.or_eq_true, h, h]
  constructor
  · rintro (⟨d, hd, hbit⟩ | ⟨d, hd, hbit⟩)
    · exact ⟨d, by omega, hbit⟩
    · exact ⟨m + d, by omega, by rwa [show j + (m + d) = m + j + d by omega]⟩
  · rintro ⟨d, hd, hbit⟩
    rcases Nat.lt_or_ge d m with hlt | hge
    · exact Or.inl ⟨d, hlt, hbit⟩
    · exact Or.inr ⟨d - m, by omega, by rwa [show m + j + (d - m) = j + d by omega]⟩

/-- All places below the topmost bit are filled. -/
theorem Spreads.eq {m x y : ℕ} (h : Spreads m x y) (hx : x < 2 ^ m) : y = 2 ^ x.size - 1 := by
  refine Nat.eq_of_testBit_eq fun j => ?_
  rw [Bool.eq_iff_iff, h, Nat.testBit_two_pow_sub_one, decide_eq_true_iff, Nat.lt_size]
  constructor
  · rintro ⟨d, -, hbit⟩
    exact (Nat.pow_le_pow_right Nat.two_pos (Nat.le_add_right j d)).trans
      (Nat.ge_two_pow_of_testBit hbit)
  · intro hle
    obtain ⟨k, hk, hbit⟩ := Nat.exists_ge_and_testBit_of_ge_two_pow hle
    have hkm : k < m := (Nat.pow_lt_pow_iff_right (Nat.lt_succ_self 1)).mp
      ((Nat.ge_two_pow_of_testBit hbit).trans_lt hx)
    exact ⟨k - j, by omega, by rwa [show j + (k - j) = k by omega]⟩

theorem smallestPowerOfTwo_eq {x : ℕ} (h0 : 0 < x) (h : x ≤ 2 ^ 31) :
    smallestPowerOfTwo x = 2 ^ (x - 1).size := by
  have hx : (x + (2 ^ 32 - 1)) % 2 ^ 32 = x - 1 := by omega
  have hspread := (spreads_one (x - 1)).double.double.double.double.double.eq (by omega)
  have hsize : (x - 1).size ≤ 31 := Nat.size_le.mpr (by omega)
  have hpow : 2 ^ (x - 1).size ≤ 2 ^ 31 := Nat.pow_le_pow_right Nat.two_pos hsize
  have hpos : 0 < 2 ^ (x - 1).size := Nat.two_pow_pos _
  simp only [smallestPowerOfTwo, hx]
  rw [hspread, Nat.sub_add_cancel hpos, Nat.mod_eq_of_lt (by omega)]

/-! ## The sizes -/

theorem int16_toNat_le (n : ℕ) : (int16 n).toNat ≤ 32767 := by
  rw [int16, Int.bmod_def]
  split_ifs <;> omega

theorem int16_of_le {n : ℕ} (h : n ≤ 32767) : int16 n = n := by
  rw [int16, Int.bmod_def]
  split_ifs <;> omega

theorem foldl_maxBitmap_le {sizes : List ℕ} {m : ℕ} (hm : m ≤ 32767) :
    sizes.foldl (fun m (n : ℕ) => max (int16 n).toNat m) m ≤ 32767 := by
  induction sizes generalizing m with
  | nil => exact hm
  | cons n sizes ih =>
    rw [List.foldl_cons]
    exact ih (max_le (int16_toNat_le n) hm)

theorem maxBitmap_le (sizes : List ℕ) : maxBitmap sizes ≤ 32767 :=
  foldl_maxBitmap_le (Nat.zero_le _)

theorem foldl_maxBitmap_eq {sizes : List ℕ} (h : ∀ n ∈ sizes, n ≤ 32767) (m : ℕ) :
    sizes.foldl (fun m (n : ℕ) => max (int16 n).toNat m) m = max (sizes.foldr max 0) m := by
  induction sizes generalizing m with
  | nil => exact (max_eq_right (Nat.zero_le m)).symm
  | cons n sizes ih =>
    rw [List.foldl_cons, ih (fun k hk => h k (List.mem_cons_of_mem n hk)), List.foldr_cons,
      int16_of_le (h n List.mem_cons_self), Int.toNat_natCast]
    omega

/-- The greatest of the sizes of all characters. -/
def greatest (size : Fin 256 → ℕ) : ℕ := Finset.univ.sup size

theorem foldr_max_finRange (size : Fin 256 → ℕ) :
    ((List.finRange 256).map size).foldr max 0 = greatest size := by
  refine le_antisymm ?_ (Finset.sup_le fun i _ => ?_)
  · have hle : ∀ l : List (Fin 256), (l.map size).foldr max 0 ≤ greatest size := by
      intro l
      induction l with
      | nil => exact Nat.zero_le _
      | cons i l ih => exact max_le (Finset.le_sup (f := size) (Finset.mem_univ i)) ih
    exact hle _
  · have hle : ∀ l : List (Fin 256), i ∈ l → size i ≤ (l.map size).foldr max 0 := by
      intro l hi
      induction l with
      | nil => simp at hi
      | cons j l ih =>
        rcases List.mem_cons.mp hi with rfl | hi
        · exact le_max_left _ _
        · exact (ih hi).trans (le_max_right _ _)
    exact hle _ (List.mem_finRange i)

/-- Sizes of at most 16 bits are not cut. -/
theorem maxBitmap_eq {size : Fin 256 → ℕ} (h : greatest size ≤ 32767) :
    maxBitmap ((List.finRange 256).map size) = greatest size := by
  have hall : ∀ n ∈ (List.finRange 256).map size, n ≤ 32767 := by
    intro n hn
    obtain ⟨i, -, rfl⟩ := List.mem_map.mp hn
    exact (Finset.le_sup (f := size) (Finset.mem_univ i)).trans h
  rw [maxBitmap, foldl_maxBitmap_eq hall, foldr_max_finRange]
  exact max_eq_left (Nat.zero_le _)

/-! ## The size of the texture -/

variable {w h : ℕ}

/-- The size stays a power of two, and is large enough in the end. -/
theorem sizeTexture_spec {fuel k textureSize : ℕ}
    (heq : sizeTexture w h fuel (2 ^ k) = .ok textureSize) :
    ∃ m, textureSize = 2 ^ m ∧ 256 ≤ textureSize / w * (textureSize / h) := by
  induction fuel generalizing k with
  | zero => simp [sizeTexture] at heq
  | succ fuel ih =>
    rw [sizeTexture] at heq
    split_ifs at heq with hover hlarge hdouble
    · exact ⟨k, (Except.ok.inj heq).symm, (Except.ok.inj heq) ▸ hlarge⟩
    · exact ih (k := k + 1) heq

theorem slots_mono {a b : ℕ} (hab : a ≤ b) : a / w * (a / h) ≤ b / w * (b / h) :=
  Nat.mul_le_mul (Nat.div_le_div_right hab) (Nat.div_le_div_right hab)

/-- The size does not go beyond one that is large enough. -/
theorem sizeTexture_eq (fuel : ℕ) {k n : ℕ} (hk : k ≤ n) (hn : n ≤ 15) (hfuel : n - k < fuel)
    (hlarge : 256 ≤ 2 ^ n / w * (2 ^ n / h)) :
    ∃ m ≤ n, sizeTexture w h fuel (2 ^ k) = .ok (2 ^ m) := by
  induction fuel generalizing k with
  | zero => exact absurd hfuel (Nat.not_lt_zero _)
  | succ fuel ih =>
    have hpow : 2 ^ k ≤ 2 ^ 15 := Nat.pow_le_pow_right Nat.two_pos (hk.trans hn)
    have hslots : 2 ^ k / w * (2 ^ k / h) ≤ 2 ^ 15 * 2 ^ 15 :=
      Nat.mul_le_mul ((Nat.div_le_self _ _).trans hpow) ((Nat.div_le_self _ _).trans hpow)
    rw [sizeTexture, if_neg (by omega)]
    by_cases hnow : 256 ≤ 2 ^ k / w * (2 ^ k / h)
    · exact ⟨k, hk, by rw [if_pos hnow]⟩
    · have hlt : k < n := lt_of_le_of_ne hk fun heq => hnow (heq ▸ hlarge)
      rw [if_neg hnow, if_neg (by omega), ← Nat.pow_succ]
      exact ih hlt (by omega)

/-- When 256 slots fit into a texture of 32768, the estimate is not larger than that. -/
theorem sqrt_le {n : ℕ} (hlarge : 256 ≤ n / w * (n / h)) : Nat.sqrt (w * h * 256) ≤ n := by
  have hw : n / w * w ≤ n := Nat.div_mul_le_self n w
  have hh : n / h * h ≤ n := Nat.div_mul_le_self n h
  have harea : w * h * 256 ≤ n * n := calc
    w * h * 256 ≤ w * h * (n / w * (n / h)) := Nat.mul_le_mul_left _ hlarge
    _ = (n / w * w) * (n / h * h) := by ring
    _ ≤ n * n := Nat.mul_le_mul hw hh
  exact (Nat.sqrt_le_sqrt harea).trans_eq (Nat.sqrt_eq n)

/-! ## Slots -/

/-- A place in the texture is in a slot exactly if its column and row are those of the slot. -/
theorem inSlot_iff {data : Data} {i x y : ℕ} (hw : 0 < data.maxBitmapWidth)
    (hh : 0 < data.maxBitmapHeight) :
    data.InSlot i x y ↔
      x / data.maxBitmapWidth = i % (data.textureSize / data.maxBitmapWidth) ∧
      y / data.maxBitmapHeight = i / (data.textureSize / data.maxBitmapWidth) := by
  unfold Data.InSlot
  rw [Nat.div_eq_iff hw, Nat.div_eq_iff hh]
  constructor
  · rintro ⟨hx, hy⟩
    omega
  · rintro ⟨hx, hy⟩
    omega

/-- The last slot of a row, and the last row, end within the texture. -/
theorem slot_within {n c k : ℕ} (hk : k < n / c) : k * c + c ≤ n := by
  have hle : (k + 1) * c ≤ n := (Nat.mul_le_mul_right c hk).trans (Nat.div_mul_le_self n c)
  rwa [Nat.add_mul, one_mul] at hle

/-- Rows and columns of slots, of a texture with enough of them. -/
theorem slot_lt {i n w h : ℕ} (hi : i < 256) (hlarge : 256 ≤ n / w * (n / h)) :
    i % (n / w) < n / w ∧ i / (n / w) < n / h := by
  have hpos : 0 < n / w := Nat.pos_of_ne_zero fun hzero => by
    rw [hzero, Nat.zero_mul] at hlarge
    exact absurd hlarge (by decide)
  exact ⟨Nat.mod_lt i hpos, Nat.div_lt_of_lt_mul (hi.trans_le hlarge)⟩

theorem pixelOffset_add (w h n i x y : ℕ) : pixelOffset w h n i + x + y * n =
    (i % (n / w) * w + x) + (i / (n / w) * h + y) * n := by
  rw [pixelOffset]
  ring

/-- A remainder and a quotient by the same number. -/
theorem eq_of_add_mul_eq {a b c d n : ℕ} (ha : a < n) (hc : c < n) (heq : a + b * n = c + d * n) :
    a = c ∧ b = d := by
  have hmod := congrArg (· % n) heq
  have hdiv := congrArg (· / n) heq
  simp only [Nat.add_mul_mod_self_right, Nat.mod_eq_of_lt ha, Nat.mod_eq_of_lt hc] at hmod
  simp only [Nat.add_mul_div_right _ _ (Nat.zero_lt_of_lt ha), Nat.div_eq_of_lt ha,
    Nat.div_eq_of_lt hc, Nat.zero_add] at hdiv
  exact ⟨hmod, hdiv⟩

theorem eq_of_mul_add_eq {a b c d n : ℕ} (hb : b < n) (hd : d < n)
    (heq : a * n + b = c * n + d) : a = c ∧ b = d :=
  (eq_of_add_mul_eq hb hd (by rw [Nat.add_comm b, Nat.add_comm d, heq])).symm

theorem mem_cells {glyphs : Fin 256 → Glyph} {c : Fin 256 × ℕ × ℕ} :
    c ∈ cells glyphs ↔ c.2.1 < (glyphs c.1).rows ∧ c.2.2 < (glyphs c.1).width := by
  obtain ⟨i, y, x⟩ := c
  simp only [cells, List.mem_flatMap, List.mem_finRange, true_and, List.mem_map,
    List.mem_product, List.mem_range, Prod.mk.injEq, Prod.exists]
  constructor
  · rintro ⟨j, a, b, hab, rfl, rfl, rfl⟩
    exact hab
  · exact fun h => ⟨i, y, x, h, rfl, rfl, rfl⟩

theorem nodup_cells (glyphs : Fin 256 → Glyph) : (cells glyphs).Nodup := by
  rw [cells, List.nodup_flatMap]
  refine ⟨fun i _ => (List.nodup_range.product List.nodup_range).map fun a b hab => ?_,
    (List.nodup_finRange 256).imp fun {i j} hij => ?_⟩
  · exact (Prod.mk.inj hab).2
  · refine List.disjoint_left.mpr ?_
    intro c hc hc'
    obtain ⟨_, -, rfl⟩ := List.mem_map.mp hc
    obtain ⟨_, -, heq⟩ := List.mem_map.mp hc'
    exact hij (Prod.mk.inj heq).1.symm

/-- A texture of at least 256 slots, each large enough for all bitmaps. -/
theorem Loaded.of_slots {glyphs : Fin 256 → Glyph} {w h n : ℕ}
    (hw : 0 < w) (hh : 0 < h) (hlarge : 256 ≤ n / w * (n / h))
    (hholds : ∀ i, (glyphs i).width ≤ w ∧ (glyphs i).rows ≤ h) :
    Loaded glyphs (fill glyphs w h n) := by
  have hcell {c : Fin 256 × ℕ × ℕ} (hc : c ∈ cells glyphs) :
      (c.1 : ℕ) % (n / w) * w + c.2.2 < n ∧ (c.1 : ℕ) / (n / w) * h + c.2.1 < n ∧
      c.2.2 < w ∧ c.2.1 < h := by
    obtain ⟨hy, hx⟩ := mem_cells.mp hc
    obtain ⟨hcolumn, hrow⟩ := slot_lt c.1.isLt hlarge
    have hright := slot_within hcolumn
    have hbottom := slot_within hrow
    have hsize := hholds c.1
    omega
  refine ⟨fun i j hij x y => ?_, fun i x y hslot => ?_, hholds, ?_, ?_⟩
  · rintro ⟨hi, hj⟩
    rw [inSlot_iff hw hh] at hi hj
    refine hij (Fin.ext ?_)
    have hslotX : (i : ℕ) % (n / w) = j % (n / w) := hi.1.symm.trans hj.1
    have hslotY : (i : ℕ) / (n / w) = j / (n / w) := hi.2.symm.trans hj.2
    rw [← Nat.div_add_mod (i : ℕ) (n / w), ← Nat.div_add_mod (j : ℕ) (n / w), hslotX, hslotY]
  · obtain ⟨hcolumn, hrow⟩ := slot_lt i.isLt hlarge
    have hright := slot_within hcolumn
    have hbottom := slot_within hrow
    obtain ⟨⟨-, hx⟩, -, hy⟩ := hslot
    exact ⟨hx.trans_le hright, hy.trans_le hbottom⟩
  · rw [fill, List.map_map]
    refine List.Nodup.map_on (fun c hc c' hc' heq => ?_) (nodup_cells glyphs)
    obtain ⟨hx, hy, hinx, hiny⟩ := hcell hc
    obtain ⟨hx', hy', hinx', hiny'⟩ := hcell hc'
    change pixelOffset w h n c.1 + c.2.2 + c.2.1 * n =
      pixelOffset w h n c'.1 + c'.2.2 + c'.2.1 * n at heq
    rw [pixelOffset_add, pixelOffset_add] at heq
    -- a pixel has one column and one row
    obtain ⟨hcolumn, hrow⟩ := eq_of_add_mul_eq hx hx' heq
    obtain ⟨hslotX, hcx⟩ := eq_of_mul_add_eq hinx hinx' hcolumn
    obtain ⟨hslotY, hcy⟩ := eq_of_mul_add_eq hiny hiny' hrow
    have hindex : (c.1 : ℕ) = c'.1 := by
      rw [← Nat.div_add_mod (c.1 : ℕ) (n / w), ← Nat.div_add_mod (c'.1 : ℕ) (n / w), hslotX,
        hslotY]
    exact Prod.ext (Fin.ext hindex) (Prod.ext hcy hcx)
  · intro k hk
    rw [fill, List.map_map] at hk
    obtain ⟨c, hc, rfl⟩ := List.mem_map.mp hk
    obtain ⟨hcolumn, hrow, -, -⟩ := hcell hc
    change pixelOffset w h n c.1 + c.2.2 + c.2.1 * n < n * n
    rw [pixelOffset_add]
    nlinarith

/-- What is loaded has a texture of a power of two, with slots for 256 characters. -/
theorem load_spec {glyphs : Fin 256 → Glyph} {data : Data} (heq : load glyphs = .ok data) :
    data.maxBitmapWidth = maxBitmap ((List.finRange 256).map fun i => (glyphs i).width) ∧
    data.maxBitmapHeight = maxBitmap ((List.finRange 256).map fun i => (glyphs i).rows) ∧
    (0 < data.maxBitmapWidth ∧ 0 < data.maxBitmapHeight) ∧
    data.textureSize * data.textureSize < 2 ^ 31 ∧
    256 ≤ data.textureSize / data.maxBitmapWidth * (data.textureSize / data.maxBitmapHeight) ∧
    ∃ m, data.textureSize = 2 ^ m := by
  unfold load at heq
  generalize hw : maxBitmap ((List.finRange 256).map fun i => (glyphs i).width) = w at heq ⊢
  generalize hh : maxBitmap ((List.finRange 256).map fun i => (glyphs i).rows) = h at heq ⊢
  dsimp only at heq
  split_ifs at heq with harea hzero
  rw [not_or] at hzero
  split at heq
  · simp at heq
  next textureSize hsize =>
    split_ifs at heq with hpixels
    obtain rfl := Except.ok.inj heq
    have hpos : 0 < w * h * 256 :=
      Nat.mul_pos (Nat.mul_pos (Nat.pos_of_ne_zero hzero.1) (Nat.pos_of_ne_zero hzero.2))
        (by decide)
    have hle := Nat.sqrt_le_self (w * h * 256)
    rw [smallestPowerOfTwo_eq (Nat.sqrt_pos.mpr hpos) (by omega)] at hsize
    obtain ⟨m, hm, hlarge⟩ := sizeTexture_spec hsize
    rw [not_le] at hpixels
    exact ⟨rfl, rfl, ⟨Nat.pos_of_ne_zero hzero.1, Nat.pos_of_ne_zero hzero.2⟩, hpixels, hlarge,
      m, hm⟩

/-- A texture of a power of two whose pixels an `int` counts is not larger than 32768. -/
theorem two_pow_le {n m : ℕ} (hn : n = 2 ^ m) (hlt : n * n < 2 ^ 31) : n ≤ 2 ^ 15 := by
  rw [hn, ← Nat.pow_add, Nat.pow_lt_pow_iff_right (Nat.lt_succ_self 1)] at hlt
  rw [hn]
  exact Nat.pow_le_pow_right Nat.two_pos (by omega)

theorem le_greatest (size : Fin 256 → ℕ) (i : Fin 256) : size i ≤ greatest size :=
  Finset.le_sup (f := size) (Finset.mem_univ i)

/-- The texture is as it should be exactly if the sizes of the bitmaps have 16 bits, and a texture of
32768 has room for 256 slots; the number of pixels of the next one overflows. -/
theorem load_iff {glyphs : Fin 256 → Glyph} {w h : ℕ}
    (hwidth : w = greatest fun i => (glyphs i).width)
    (hheight : h = greatest fun i => (glyphs i).rows) (hw : 1 ≤ w) (hh : 1 ≤ h)
    (harea : 256 * (w * h) < 2 ^ 31) :
    (∃ data, load glyphs = .ok data ∧ Loaded glyphs data) ↔
      w ≤ 32767 ∧ h ≤ 32767 ∧ 256 ≤ 32768 / w * (32768 / h) := by
  constructor
  · rintro ⟨data, heq, hloaded⟩
    obtain ⟨hw', hh', -, hpixels, hlarge, m, hm⟩ := load_spec heq
    have hle : w ≤ data.maxBitmapWidth ∧ h ≤ data.maxBitmapHeight := by
      rw [hwidth, hheight]
      exact ⟨Finset.sup_le fun i _ => (hloaded.holds i).1,
        Finset.sup_le fun i _ => (hloaded.holds i).2⟩
    have hw16 : w ≤ 32767 := hle.1.trans (hw' ▸ maxBitmap_le _)
    have hh16 : h ≤ 32767 := hle.2.trans (hh' ▸ maxBitmap_le _)
    rw [hwidth] at hw16
    rw [hheight] at hh16
    rw [maxBitmap_eq hw16, ← hwidth] at hw'
    rw [maxBitmap_eq hh16, ← hheight] at hh'
    rw [hw', hh'] at hlarge
    exact ⟨hwidth ▸ hw16, hheight ▸ hh16, hlarge.trans (slots_mono (two_pow_le hm hpixels))⟩
  · rintro ⟨hw16, hh16, hlarge⟩
    have hwmax : maxBitmap ((List.finRange 256).map fun i => (glyphs i).width) = w := by
      rw [hwidth] at hw16
      rw [maxBitmap_eq hw16, hwidth]
    have hhmax : maxBitmap ((List.finRange 256).map fun i => (glyphs i).rows) = h := by
      rw [hheight] at hh16
      rw [maxBitmap_eq hh16, hheight]
    have hsqrt : 0 < Nat.sqrt (w * h * 256) :=
      Nat.sqrt_pos.mpr (Nat.mul_pos (Nat.mul_pos hw hh) (by decide))
    have hestimate : Nat.sqrt (w * h * 256) ≤ 2 ^ 15 := sqrt_le hlarge
    have hk : (Nat.sqrt (w * h * 256) - 1).size ≤ 15 := Nat.size_le.mpr (by omega)
    obtain ⟨m, hm, hsize⟩ := sizeTexture_eq 32 hk le_rfl (by omega) hlarge
    have hpow : 2 ^ m ≤ 2 ^ 15 := Nat.pow_le_pow_right Nat.two_pos hm
    have hpixels : 2 ^ m * 2 ^ m ≤ 2 ^ 15 * 2 ^ 15 := Nat.mul_le_mul hpow hpow
    obtain ⟨-, -, hslots⟩ := sizeTexture_spec hsize
    refine ⟨_, ?_, Loaded.of_slots hw hh hslots fun i => ?_⟩
    · unfold load
      dsimp only
      rw [hwmax, hhmax, if_neg (by omega), if_neg (by omega),
        smallestPowerOfTwo_eq hsqrt (by omega), hsize]
      dsimp only
      rw [if_neg (by omega)]
    · rw [hwidth, hheight]
      exact ⟨le_greatest (fun i => (glyphs i).width) i, le_greatest (fun i => (glyphs i).rows) i⟩

end Fimbulwinter.GlyphAtlas
