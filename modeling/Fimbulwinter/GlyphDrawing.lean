import Fimbulwinter.GlyphAtlas

/-! # Drawing from the glyph atlas

A `char` is signed, and a text a list of its bytes. -/
namespace Fimbulwinter.GlyphAtlas

abbrev Byte := BitVec 8

/-- `Font`, which `compile` copies from the data. -/
structure Font where
  maxBitmapWidth : ℕ
  maxBitmapHeight : ℕ
  textureSize : ℕ
  params : Fin 256 → Param

/-- `Font::compile` -/
def compile (data : Data) : Font :=
  ⟨data.maxBitmapWidth, data.maxBitmapHeight, data.textureSize, data.params⟩

/-- A corner of a quad: its place in the texture, and the one on the screen. -/
structure Corner where
  s : ℚ
  t : ℚ
  x : ℤ
  y : ℤ
  deriving DecidableEq

/-- `params[c]` -/
def Font.param (font : Font) (c : ℤ) : Except Fault Param :=
  if h : 0 ≤ c ∧ c < 256 then .ok (font.params ⟨c.toNat, by omega⟩) else .error .outOfRange

/-- The four calls of `glTexCoord2f` and of `glVertex2i`, from the edges of a part of the texture. -/
def Font.quad (font : Font) (left top right bottom : ℚ) (ox oy : ℤ) : List Corner :=
  [⟨left / font.textureSize, top / font.textureSize, ox, oy⟩,
    ⟨left / font.textureSize, bottom / font.textureSize, ox, oy + font.maxBitmapHeight⟩,
    ⟨right / font.textureSize, bottom / font.textureSize, ox + font.maxBitmapWidth,
      oy + font.maxBitmapHeight⟩,
    ⟨right / font.textureSize, top / font.textureSize, ox + font.maxBitmapWidth, oy⟩]

/-- `Font::draw` of a character. -/
def drawChar (font : Font) (x y : ℤ) (c : Byte) : Except Fault (List Corner) :=
  let maxNumberOfBitmapsInX : ℤ := (font.textureSize / font.maxBitmapWidth : ℕ)
  let bitmapSlotX := c.toInt.tmod maxNumberOfBitmapsInX
  let bitmapSlotY := c.toInt.tdiv maxNumberOfBitmapsInX
  (font.param c.toInt).map fun param =>
    font.quad bitmapSlotX bitmapSlotY (bitmapSlotX + 1) (bitmapSlotY + 1) (x - param.bitmapLeft)
      (y - param.bitmapTop)

/-- What the loops of `Font::draw` over a text do with a character: the quad, and where the next
character is drawn. -/
def drawGlyph (font : Font) (x y : ℤ) (c : Byte) : Except Fault (List Corner × ℤ × ℤ) :=
  let maxNumberOfBitmapsInX : ℤ := (font.textureSize / font.maxBitmapWidth : ℕ)
  let bitmapSlotX := c.toInt.tmod maxNumberOfBitmapsInX
  let bitmapSlotY := c.toInt.tdiv maxNumberOfBitmapsInX
  (font.param c.toInt).map fun param =>
    (font.quad (bitmapSlotX * font.maxBitmapWidth) (bitmapSlotY * font.maxBitmapHeight)
      ((bitmapSlotX + 1) * font.maxBitmapWidth) ((bitmapSlotY + 1) * font.maxBitmapHeight)
      (x - param.bitmapLeft) (y - param.bitmapTop), x + param.advanceX, y + param.advanceY)

/-- `Font::draw` of a text that ends with a null. -/
def drawText (font : Font) : ℤ → ℤ → List Byte → Except Fault (List (List Corner))
  | _, _, [] => .error .unterminated
  | x, y, c :: text =>
    if c = 0 then .ok []
    else
      match drawGlyph font x y c with
      | .error e => .error e
      | .ok (quad, x, y) => (drawText font x y text).map (quad :: ·)

/-- `Font::draw` of a text of a length, from the `i`th character. -/
def drawLength (font : Font) : ℕ → ℤ → ℤ → List Byte → Except Fault (List (List Corner))
  | _, _, _, [] => .ok []
  | i, x, y, c :: text =>
    match drawGlyph font x y c with
    | .error e => .error e
    | .ok (quad, x, y) =>
      if 2 ^ 31 ≤ i + 1 then .error .overflow
      else (drawLength font (i + 1) x y text).map (quad :: ·)

/-! ## The slots of a text -/

/-- The quad of a character, with exactly its slot in the texture. -/
def slotQuad (font : Font) (x y : ℤ) (c : Byte) : List Corner :=
  let maxNumberOfBitmapsInX := font.textureSize / font.maxBitmapWidth
  let left := c.toNat % maxNumberOfBitmapsInX * font.maxBitmapWidth
  let top := c.toNat / maxNumberOfBitmapsInX * font.maxBitmapHeight
  let param := font.params ⟨c.toNat, c.isLt⟩
  font.quad left top (left + font.maxBitmapWidth : ℕ) (top + font.maxBitmapHeight : ℕ)
    (x - param.bitmapLeft) (y - param.bitmapTop)

/-- The quads of a text, each behind the one before. -/
def slotQuads (font : Font) : ℤ → ℤ → List Byte → List (List Corner)
  | _, _, [] => []
  | x, y, c :: text =>
    let param := font.params ⟨c.toNat, c.isLt⟩
    slotQuad font x y c :: slotQuads font (x + param.advanceX) (y + param.advanceY) text

variable {font : Font} {x y : ℤ} {c : Byte}

theorem toInt_of_lt (hc : c.toNat < 128) : c.toInt = c.toNat := by
  rw [BitVec.toInt_eq_toNat_cond, if_pos (by omega)]

theorem toInt_of_ge (hc : 128 ≤ c.toNat) : c.toInt < 0 := by
  have hlt := c.isLt
  rw [BitVec.toInt_eq_toNat_cond, if_neg (by omega)]
  omega

theorem param_of_lt (hc : c.toNat < 128) :
    font.param c.toInt = .ok (font.params ⟨c.toNat, c.isLt⟩) := by
  rw [Font.param, dif_pos (by rw [toInt_of_lt hc]; omega)]
  congr 3
  rw [toInt_of_lt hc, Int.toNat_natCast]

/-- A `char` of 128 or more is negative, and there are no parameters for it. -/
theorem param_of_ge (hc : 128 ≤ c.toNat) : font.param c.toInt = .error .outOfRange := by
  have hneg := toInt_of_ge hc
  rw [Font.param, dif_neg (by omega)]

theorem tmod_of_lt (hc : c.toNat < 128) (n : ℕ) : c.toInt.tmod n = (c.toNat % n : ℕ) := by
  rw [toInt_of_lt hc, Int.ofNat_tmod]

theorem tdiv_of_lt (hc : c.toNat < 128) (n : ℕ) : c.toInt.tdiv n = (c.toNat / n : ℕ) := by
  rw [toInt_of_lt hc, Int.ofNat_tdiv]

/-- The loops over texts draw exactly the slots of what is not negative. -/
theorem drawGlyph_of_lt (hc : c.toNat < 128) : drawGlyph font x y c =
    .ok (slotQuad font x y c, x + (font.params ⟨c.toNat, c.isLt⟩).advanceX,
      y + (font.params ⟨c.toNat, c.isLt⟩).advanceY) := by
  simp only [drawGlyph, param_of_lt hc, tmod_of_lt hc, tdiv_of_lt hc, Except.map, slotQuad]
  simp only [Int.cast_natCast, Nat.cast_add, Nat.cast_mul, add_mul, one_mul]

theorem drawGlyph_of_ge (hc : 128 ≤ c.toNat) : drawGlyph font x y c = .error .outOfRange := by
  rw [drawGlyph, param_of_ge hc]
  rfl

/-- Adding the first quad to those of the rest. -/
theorem map_cons_eq_iff {quads : Except Fault (List (List Corner))} {q : List Corner}
    {rest : List (List Corner)} :
    quads.map (q :: ·) = .ok (q :: rest) ↔ quads = .ok rest := by
  cases quads <;> simp [Except.map]

theorem drawText_iff {text : List Byte} (hnull : 0 ∉ text) (rest : List Byte) :
    drawText font x y (text ++ 0 :: rest) = .ok (slotQuads font x y text) ↔
      ∀ c ∈ text, c.toNat < 128 := by
  induction text generalizing x y with
  | nil => simp [drawText, slotQuads]
  | cons c text ih =>
    rw [List.mem_cons, not_or] at hnull
    rw [List.cons_append, drawText, if_neg (Ne.symm hnull.1), List.forall_mem_cons]
    rcases Nat.lt_or_ge c.toNat 128 with hlt | hge
    · rw [drawGlyph_of_lt hlt, and_iff_right hlt, slotQuads, ← ih hnull.2]
      exact map_cons_eq_iff
    · rw [drawGlyph_of_ge hge]
      simp [hge]

theorem drawLength_iff {text : List Byte} {i : ℕ} (hi : i < 2 ^ 31) :
    drawLength font i x y text = .ok (slotQuads font x y text) ↔
      (∀ c ∈ text, c.toNat < 128) ∧ i + text.length < 2 ^ 31 := by
  induction text generalizing i x y with
  | nil => simpa [drawLength, slotQuads] using hi
  | cons c text ih =>
    rw [drawLength, List.forall_mem_cons, List.length_cons]
    rcases Nat.lt_or_ge c.toNat 128 with hlt | hge
    · rw [drawGlyph_of_lt hlt, and_iff_right hlt, slotQuads]
      dsimp only
      split_ifs with hoverflow
      · simp only [false_iff, not_and]
        omega
      · rw [map_cons_eq_iff, ih (by omega)]
        exact and_congr_right fun _ => by omega
    · rw [drawGlyph_of_ge hge]
      simp [hge]

theorem eq_one_of_succ_eq {k n : ℕ} (h : ((k : ℤ) : ℚ) + 1 = (k * n + n : ℕ)) : n = 1 := by
  rw [Int.cast_natCast] at h
  have hnat : k + 1 = k * n + n := by exact_mod_cast h
  exact Nat.eq_of_mul_eq_mul_left (Nat.succ_pos k) (by rw [Nat.succ_mul, ← hnat, Nat.mul_one])

/-- The overload for a character leaves out the factors of the size of the slots. -/
theorem drawChar_iff (hsize : font.textureSize ≠ 0) :
    drawChar font x y c = .ok (slotQuad font x y c) ↔
      c.toNat < 128 ∧ font.maxBitmapWidth = 1 ∧ font.maxBitmapHeight = 1 := by
  have hsize' : (font.textureSize : ℚ) ≠ 0 := Nat.cast_ne_zero.mpr hsize
  rcases Nat.lt_or_ge c.toNat 128 with hlt | hge
  · simp only [drawChar, param_of_lt hlt, tmod_of_lt hlt, tdiv_of_lt hlt, Except.map, slotQuad,
      Except.ok.injEq, hlt, true_and]
    constructor
    · intro heq
      simp only [Font.quad, List.cons.injEq, Corner.mk.injEq, div_left_inj' hsize'] at heq
      obtain ⟨-, -, ⟨hright, hbottom, -⟩, -⟩ := heq
      exact ⟨eq_one_of_succ_eq hright, eq_one_of_succ_eq hbottom⟩
    · rintro ⟨hw, hh⟩
      simp only [hw, hh, Int.cast_natCast, Nat.cast_add, Nat.cast_one, mul_one]
  · rw [drawChar, param_of_ge hge]
    simp [Except.map, Nat.not_lt.mpr hge]

/-- The texture is right exactly if there is one of 32768 that has room, and drawing from it is right
exactly for characters that are not negative; the overload for a character maps a single pixel for
each of them. -/
theorem atlas_iff {glyphs : Fin 256 → Glyph} {w h : ℕ}
    (hwidth : w = greatest fun i => (glyphs i).width)
    (hheight : h = greatest fun i => (glyphs i).rows) (hw : 1 ≤ w) (hh : 1 ≤ h)
    (harea : 256 * (w * h) < 2 ^ 31) :
    ((∃ data, load glyphs = .ok data ∧ Loaded glyphs data) ↔
      w ≤ 32767 ∧ h ≤ 32767 ∧ 256 ≤ 32768 / w * (32768 / h)) ∧
    ∀ data, load glyphs = .ok data → ∀ x y,
      (∀ c, drawChar (compile data) x y c = .ok (slotQuad (compile data) x y c) ↔
        c.toNat < 128 ∧ data.maxBitmapWidth = 1 ∧ data.maxBitmapHeight = 1) ∧
      (∀ text rest, 0 ∉ text →
        (drawText (compile data) x y (text ++ 0 :: rest) =
          .ok (slotQuads (compile data) x y text) ↔ ∀ c ∈ text, c.toNat < 128)) ∧
      (∀ text, drawLength (compile data) 0 x y text = .ok (slotQuads (compile data) x y text) ↔
        (∀ c ∈ text, c.toNat < 128) ∧ text.length < 2 ^ 31) := by
  refine ⟨load_iff hwidth hheight hw hh harea, fun data hload x y => ?_⟩
  obtain ⟨-, -, -, -, hlarge, -⟩ := load_spec hload
  have hsize : (compile data).textureSize ≠ 0 := fun hzero => by
    rw [show data.textureSize = 0 from hzero, Nat.zero_div, Nat.zero_mul] at hlarge
    exact absurd hlarge (by decide)
  refine ⟨fun c => drawChar_iff hsize, fun text rest hnull => drawText_iff hnull rest,
    fun text => ?_⟩
  rw [drawLength_iff (by decide), Nat.zero_add]

theorem eq_greatest (n : ℕ) : n = greatest fun _ => n :=
  le_antisymm (le_greatest (fun _ => n) 0) (Finset.sup_le fun _ _ => le_rfl)

/-- Bitmaps of eight columns and sixteen rows. -/
theorem atlas_iff_small :
    ∃ data, load (fun _ => ⟨8, 16, fun _ => 0, 0, 12, 512, 0⟩) = .ok data ∧
      Loaded (fun _ => ⟨8, 16, fun _ => 0, 0, 12, 512, 0⟩) data :=
  (@atlas_iff (fun _ => ⟨8, 16, fun _ => 0, 0, 12, 512, 0⟩) 8 16 (eq_greatest 8)
    (eq_greatest 16) (by decide) (by decide) (by decide)).1.mpr (by decide)

/-- From a texture that is right, `A` is drawn wrong by the overload for a character, and the byte 200
of a text not at all; and there is none for bitmaps of 32767 columns and 256 rows. -/
theorem not_atlas :
    (∃ data, load (fun _ => ⟨8, 16, fun _ => 0, 0, 12, 512, 0⟩) = .ok data ∧
      drawChar (compile data) 0 0 65 ≠ .ok (slotQuad (compile data) 0 0 65) ∧
      drawLength (compile data) 0 0 0 [200] = .error .outOfRange) ∧
    ¬ ∃ data, load (fun _ => ⟨32767, 256, fun _ => 0, 0, 12, 512, 0⟩) = .ok data ∧
      Loaded (fun _ => ⟨32767, 256, fun _ => 0, 0, 12, 512, 0⟩) data := by
  constructor
  · obtain ⟨data, hload, -⟩ := (@load_iff (fun _ => ⟨8, 16, fun _ => 0, 0, 12, 512, 0⟩) 8 16
      (eq_greatest 8) (eq_greatest 16) (by decide) (by decide) (by decide)).mpr (by decide)
    obtain ⟨hwidth, -, -, -, hlarge, -⟩ := load_spec hload
    have hsize : (compile data).textureSize ≠ 0 := fun hzero => by
      rw [show data.textureSize = 0 from hzero, Nat.zero_div, Nat.zero_mul] at hlarge
      exact absurd hlarge (by decide)
    have hle : (greatest fun _ => 8) ≤ 32767 := by
      rw [← eq_greatest]
      decide
    rw [maxBitmap_eq hle, ← eq_greatest] at hwidth
    refine ⟨data, hload, fun heq => ?_, ?_⟩
    · have hone : data.maxBitmapWidth = 1 := ((drawChar_iff hsize).mp heq).2.1
      rw [hwidth] at hone
      exact absurd hone (by decide)
    · have hge : 128 ≤ (200 : Byte).toNat := by decide
      simp only [drawLength, drawGlyph_of_ge hge]
  · rw [@load_iff (fun _ => ⟨32767, 256, fun _ => 0, 0, 12, 512, 0⟩) 32767 256
      (eq_greatest 32767) (eq_greatest 256) (by decide) (by decide) (by decide)]
    decide

end Fimbulwinter.GlyphAtlas
