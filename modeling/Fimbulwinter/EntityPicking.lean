import Mathlib.Algebra.Order.Ring.Int
import Fimbulwinter.ArrayResize
import Fimbulwinter.TransitionRuns

/-! # Picking entities

The colours that entities are drawn with, the pixels that are read back, and the entity that is
found at a place of the screen. The window system's rows go down, those of the pixels up. -/
namespace Fimbulwinter.EntityPicking
open ArrayResize

/-! ## Colours -/

/-- `Color4ub` -/
structure Color where
  r : ℕ
  g : ℕ
  b : ℕ
  a : ℕ

/-- The color of `MessageMakeSelectable`. -/
def selectableColor (entity : ℕ) : Color where
  r := (entity &&& 0x000000ff) >>> 0
  g := (entity &&& 0x0000ff00) >>> 8
  b := (entity &&& 0x00ff0000) >>> 16
  a := (entity &&& 0xff000000) >>> 24

/-- `GL_UNSIGNED_INT_8_8_8_8` of `GL_RGBA` -/
def packed (c : Color) : ℕ := 2 ^ 24 * c.r + 2 ^ 16 * c.g + 2 ^ 8 * c.b + c.a

/-- The entity of a color. -/
def entityOf (color : ℕ) : ℕ :=
  (color &&& 0xff000000) >>> 24 ||| (color &&& 0x00ff0000) >>> 8 |||
    (color &&& 0x0000ff00) <<< 8 ||| (color &&& 0x000000ff) <<< 24

theorem and_mask (x k : ℕ) : x &&& (0xff <<< k) = (x / 2 ^ k % 2 ^ 8) * 2 ^ k := by
  have hmask : x &&& (0xff <<< k) = ((x >>> k) &&& 0xff) <<< k := by
    refine Nat.eq_of_testBit_eq fun i => ?_
    simp only [Nat.testBit_and, Nat.testBit_shiftLeft, Nat.testBit_shiftRight]
    by_cases hk : k ≤ i
    · rw [decide_eq_true hk, Nat.add_sub_of_le hk, Bool.true_and, Bool.true_and]
    · rw [decide_eq_false hk, Bool.false_and, Bool.and_false, Bool.false_and]
  rw [hmask, Nat.shiftLeft_eq, Nat.shiftRight_eq_div_pow]
  exact congrArg (· * 2 ^ k) (Nat.and_two_pow_sub_one_eq_mod _ 8)

/-- The bytes of an entity. -/
theorem selectableColor_eq (entity : ℕ) : selectableColor entity =
    ⟨entity % 2 ^ 8, entity / 2 ^ 8 % 2 ^ 8, entity / 2 ^ 16 % 2 ^ 8, entity / 2 ^ 24 % 2 ^ 8⟩ := by
  have h0 := and_mask entity 0
  have h8 := and_mask entity 8
  have h16 := and_mask entity 16
  have h24 := and_mask entity 24
  simp only [selectableColor, Color.mk.injEq, Nat.shiftRight_eq_div_pow]
  refine ⟨?_, ?_, ?_, ?_⟩
  · rw [show 0x000000ff = 0xff <<< 0 from rfl, h0]
    omega
  · rw [show 0x0000ff00 = 0xff <<< 8 from rfl, h8, Nat.mul_div_cancel _ (Nat.two_pow_pos 8)]
  · rw [show 0x00ff0000 = 0xff <<< 16 from rfl, h16, Nat.mul_div_cancel _ (Nat.two_pow_pos 16)]
  · rw [show 0xff000000 = 0xff <<< 24 from rfl, h24, Nat.mul_div_cancel _ (Nat.two_pow_pos 24)]

/-- The bytes of a color in the opposite order. -/
theorem entityOf_eq (color : ℕ) : entityOf color =
    2 ^ 24 * (color % 2 ^ 8) + 2 ^ 16 * (color / 2 ^ 8 % 2 ^ 8) + 2 ^ 8 * (color / 2 ^ 16 % 2 ^ 8) +
      color / 2 ^ 24 % 2 ^ 8 := by
  have h0 : color &&& 0x000000ff = color / 2 ^ 0 % 2 ^ 8 * 2 ^ 0 := and_mask color 0
  have h8 : color &&& 0x0000ff00 = color / 2 ^ 8 % 2 ^ 8 * 2 ^ 8 := and_mask color 8
  have h16 : color &&& 0x00ff0000 = color / 2 ^ 16 % 2 ^ 8 * 2 ^ 16 := and_mask color 16
  have h24 : color &&& 0xff000000 = color / 2 ^ 24 % 2 ^ 8 * 2 ^ 24 := and_mask color 24
  rw [entityOf, h0, h8, h16, h24, Nat.shiftRight_eq_div_pow, Nat.shiftRight_eq_div_pow,
    Nat.shiftLeft_eq, Nat.shiftLeft_eq, Nat.mul_div_cancel _ (Nat.two_pow_pos 24)]
  generalize hr : color / 2 ^ 24 % 2 ^ 8 = r
  generalize hg : color / 2 ^ 16 % 2 ^ 8 = g
  generalize hb : color / 2 ^ 8 % 2 ^ 8 = b
  have hr' : r < 2 ^ 8 := hr ▸ Nat.mod_lt _ (by decide)
  have hg' : g < 2 ^ 8 := hg ▸ Nat.mod_lt _ (by decide)
  have hb' : b < 2 ^ 8 := hb ▸ Nat.mod_lt _ (by decide)
  have h1 : g * 2 ^ 16 / 2 ^ 8 = 2 ^ 8 * g := by omega
  have h2 : r ||| 2 ^ 8 * g = 2 ^ 8 * g + r := by
    rw [Nat.or_comm]
    exact (Nat.two_pow_add_eq_or_of_lt hr' g).symm
  have h3 : 2 ^ 8 * g + r ||| b * 2 ^ 8 * 2 ^ 8 = 2 ^ 16 * b + (2 ^ 8 * g + r) := by
    rw [Nat.or_comm, show b * 2 ^ 8 * 2 ^ 8 = 2 ^ 16 * b by omega]
    exact (Nat.two_pow_add_eq_or_of_lt (by omega) b).symm
  have h4 : 2 ^ 16 * b + (2 ^ 8 * g + r) ||| color / 2 ^ 0 % 2 ^ 8 * 2 ^ 0 * 2 ^ 24 =
      2 ^ 24 * (color % 2 ^ 8) + (2 ^ 16 * b + (2 ^ 8 * g + r)) := by
    rw [Nat.or_comm, show color / 2 ^ 0 % 2 ^ 8 * 2 ^ 0 * 2 ^ 24 = 2 ^ 24 * (color % 2 ^ 8) by omega]
    exact (Nat.two_pow_add_eq_or_of_lt (by omega) _).symm
  rw [h1, h2, h3, h4]
  omega

theorem entityOf_bytes {r g b a : ℕ} (hr : r < 2 ^ 8) (hg : g < 2 ^ 8) (hb : b < 2 ^ 8)
    (ha : a < 2 ^ 8) :
    entityOf (packed ⟨r, g, b, a⟩) = 2 ^ 24 * a + 2 ^ 16 * b + 2 ^ 8 * g + r := by
  have h0 : packed ⟨r, g, b, a⟩ % 2 ^ 8 = a := by simp only [packed]; omega
  have h8 : packed ⟨r, g, b, a⟩ / 2 ^ 8 % 2 ^ 8 = b := by simp only [packed]; omega
  have h16 : packed ⟨r, g, b, a⟩ / 2 ^ 16 % 2 ^ 8 = g := by simp only [packed]; omega
  have h24 : packed ⟨r, g, b, a⟩ / 2 ^ 24 % 2 ^ 8 = r := by simp only [packed]; omega
  rw [entityOf_eq, h0, h8, h16, h24]

/-- An entity comes back without what is above its low 32 bits. -/
theorem entityOf_packed (entity : ℕ) :
    entityOf (packed (selectableColor entity)) = entity % 2 ^ 32 := by
  rw [selectableColor_eq, entityOf_bytes (Nat.mod_lt _ (by decide)) (Nat.mod_lt _ (by decide))
    (Nat.mod_lt _ (by decide)) (Nat.mod_lt _ (by decide))]
  omega

/-! ## The renderer -/

/-- `int` in two's complement. -/
def toInt (z : ℤ) : ℤ := (z + 2 ^ 31) % 2 ^ 32 - 2 ^ 31

/-- The pixels are numbers of four bytes. -/
def word : Kind ℕ := four

/-- A size of the framebuffer, which is the extent of the displays. -/
structure Size where
  width : ℕ
  height : ℕ
  width_lt : width < 2 ^ 31
  height_lt : height < 2 ^ 31

/-- What a pixel shows: an entity, or another color. -/
inductive Pixel
  | entity (e : ℕ)
  | other (color : ℕ)

def Pixel.color : Pixel → ℕ
  | .entity e => packed (selectableColor e)
  | .other color => color

structure State where
  size : Size
  entitypixels : ArrayResize.State ℕ
  /-- What has been drawn and read since the last resize, by columns and by rows from the bottom. -/
  drawn : Option (ℕ → ℕ → Pixel)

/-- No display, and an array of the default constructor. -/
def State.initial (memory : Bool) : State :=
  ⟨⟨0, 0, Nat.two_pow_pos 31, Nat.two_pow_pos 31⟩, ⟨memory, 0, [[]], 0, []⟩, none⟩

inductive Action
  | resizeFramebuffer (size : Size) (memory : Bool)
  | renderUpdate (picture : ℕ → ℕ → Pixel)

/-- `glReadPixels`, over the elements of an array that has room for the pixels. -/
def readPixels (size : Size) (picture : ℕ → ℕ → Pixel) (column : List (Element ℕ)) :
    Except ArrayResize.Misuse (List (Element ℕ)) :=
  if column.length < size.width * size.height then .error .outside
  else .ok (column.zipIdx.map fun p =>
    if p.2 < size.width * size.height then
      { p.1 with content := (picture (p.2 % size.width) (p.2 / size.width)).color }
    else p.1)

def step (s : State) : Action → Except ArrayResize.Misuse State
  -- a resize that fails is reported, and the size has changed already
  | .resizeFramebuffer size memory => do
    let (_, entitypixels) ← ArrayResize.resize [word] memory
      (toInt (size.width * size.height) % 2 ^ 64).toNat s.entitypixels
    return ⟨size, entitypixels, none⟩
  | .renderUpdate picture => do
    let columns ← s.entitypixels.columns.mapM (readPixels s.size picture)
    return { s with entitypixels := { s.entitypixels with columns }, drawn := some picture }

/-- `get_entity_at_screen`; `none` is an index outside of the pixels. -/
def getEntityAtScreen (s : State) (sx sy : ℤ) : Option ℕ :=
  let x := sx
  let y := toInt (toInt (s.size.height - 1) - sy)
  if 0 ≤ x ∧ 0 ≤ y ∧ x < s.size.width ∧ y < s.size.height then
    let index := toInt (x + toInt (y * s.size.width))
    if index < 0 then none
    else (s.entitypixels.contents.flatten)[index.toNat]?.map entityOf
  else some 0

/-! ## What should hold -/

/-- A position of the screen. -/
structure Position where
  x : ℤ
  y : ℤ
  x_int : -2 ^ 31 ≤ x ∧ x < 2 ^ 31
  y_int : -2 ^ 31 ≤ y ∧ y < 2 ^ 31

def Position.Inside (p : Position) (size : Size) : Prop :=
  0 ≤ p.x ∧ p.x < size.width ∧ 0 ≤ p.y ∧ p.y < size.height

structure Picks (s : State) : Prop where
  elements : s.entitypixels.contents.flatten.length = s.size.width * s.size.height
  inside : ∀ p : Position, p.Inside s.size → ∃ e, getEntityAtScreen s p.x p.y = some e
  drawn : ∀ picture, s.drawn = some picture → ∀ (p : Position) (e : ℕ), p.Inside s.size →
    picture p.x.toNat (s.size.height - 1 - p.y).toNat = .entity e →
      getEntityAtScreen s p.x p.y = some e
  outside : ∀ p : Position, ¬ p.Inside s.size → getEntityAtScreen s p.x p.y = some 0

/-- The entities that are drawn have 32 bits, and the array gets the memory for a size that does not
shrink and has a number of 31 bits. -/
def Carried (s : State) : Action → Prop
  | .resizeFramebuffer size memory => memory = true ∧
    s.entitypixels.capacity ≤ size.width * size.height ∧ size.width * size.height < 2 ^ 31
  | .renderUpdate picture => ∀ x y e, x < s.size.width → y < s.size.height →
    picture x y = .entity e → e < 2 ^ 32

/-! ## The invariant -/

theorem toInt_eq {z : ℤ} (hle : -2 ^ 31 ≤ z) (hlt : z < 2 ^ 31) : toInt z = z := by
  unfold toInt
  omega

/-- The array has the pixels of the framebuffer, and what has been drawn is in them. -/
structure Kept (s : State) : Prop where
  valid : Valid [word] s.entitypixels
  capacity : s.entitypixels.capacity = s.size.width * s.size.height
  lt : s.size.width * s.size.height < 2 ^ 31
  pixels : ∀ picture, s.drawn = some picture → ∀ x y, x < s.size.width → y < s.size.height →
    (s.entitypixels.contents.flatten)[x + y * s.size.width]? = some (picture x y).color
  entities : ∀ picture, s.drawn = some picture → ∀ x y e, x < s.size.width → y < s.size.height →
    picture x y = .entity e → e < 2 ^ 32

theorem column_of_valid {t : ArrayResize.State ℕ} (h : Valid [word] t) :
    ∃ column, t.columns = [column] ∧ column.length = t.capacity := by
  obtain ⟨column, hcolumn⟩ := List.length_eq_one_iff.mp h.complete
  exact ⟨column, hcolumn, h.full column (by rw [hcolumn]; exact List.mem_cons_self)⟩

theorem contents_of_column {t : ArrayResize.State ℕ} {column : List (Element ℕ)}
    (h : t.columns = [column]) : t.contents.flatten = column.map Element.content := by
  rw [ArrayResize.State.contents, h]
  exact List.append_nil _

theorem length_contents {t : ArrayResize.State ℕ} (h : Valid [word] t) :
    t.contents.flatten.length = t.capacity := by
  obtain ⟨column, hcolumn, hlength⟩ := column_of_valid h
  rw [contents_of_column hcolumn, List.length_map, hlength]

theorem index_lt {x y : ℕ} {size : Size} (hx : x < size.width) (hy : y < size.height) :
    x + y * size.width < size.width * size.height := by
  have hle : (y + 1) * size.width ≤ size.height * size.width := Nat.mul_le_mul_right _ hy
  rw [Nat.succ_mul] at hle
  rw [Nat.mul_comm size.width]
  omega

/-- The index of a position inside is the one of its column and its row from the bottom. -/
theorem getEntityAtScreen_inside {s : State} (h : Kept s) {p : Position} (hp : p.Inside s.size) :
    p.x.toNat < s.size.width ∧ (s.size.height - 1 - p.y).toNat < s.size.height ∧
      getEntityAtScreen s p.x p.y = (s.entitypixels.contents.flatten)[p.x.toNat +
        (s.size.height - 1 - p.y).toNat * s.size.width]?.map entityOf := by
  obtain ⟨hx, hxw, hy, hyh⟩ := hp
  have hheight := s.size.height_lt
  have hrow : toInt (toInt (s.size.height - 1) - p.y) = s.size.height - 1 - p.y := by
    have hlast : toInt ((s.size.height : ℤ) - 1) = s.size.height - 1 :=
      toInt_eq (by omega) (by omega)
    rw [hlast]
    exact toInt_eq (by omega) (by omega)
  obtain ⟨x, hxnat⟩ : ∃ x : ℕ, p.x = x := ⟨p.x.toNat, by omega⟩
  obtain ⟨y, hynat⟩ : ∃ y : ℕ, (s.size.height : ℤ) - 1 - p.y = y :=
    ⟨(s.size.height - 1 - p.y).toNat, by omega⟩
  have hxlt : x < s.size.width := by omega
  have hylt : y < s.size.height := by omega
  have hindex := index_lt hxlt hylt
  have hlt := h.lt
  have hproduct : toInt ((y : ℤ) * s.size.width) = (y * s.size.width : ℕ) := by
    rw [← Nat.cast_mul]
    exact toInt_eq (by omega) (by omega)
  have hsum : toInt ((x : ℤ) + (y * s.size.width : ℕ)) = (x + y * s.size.width : ℕ) := by
    rw [← Nat.cast_add]
    exact toInt_eq (by omega) (by omega)
  have hin : (0 : ℤ) ≤ x ∧ (0 : ℤ) ≤ y ∧ (x : ℤ) < s.size.width ∧ (y : ℤ) < s.size.height :=
    ⟨Int.natCast_nonneg x, Int.natCast_nonneg y, Int.ofNat_lt.mpr hxlt, Int.ofNat_lt.mpr hylt⟩
  have hindex' : ¬ (((x + y * s.size.width : ℕ) : ℤ) < 0) :=
    Int.not_lt.mpr (Int.natCast_nonneg _)
  simp only [getEntityAtScreen, hrow, hxnat, hynat, hproduct, hsum, Int.toNat_natCast]
  refine ⟨hxlt, hylt, ?_⟩
  simp only [hin, and_self, if_true, hindex', if_false]

theorem getEntityAtScreen_outside {s : State} {p : Position} (hp : ¬ p.Inside s.size) :
    getEntityAtScreen s p.x p.y = some 0 := by
  have hheight := s.size.height_lt
  have hy := p.y_int
  have hrow : toInt (s.size.height - 1 : ℤ) = s.size.height - 1 := toInt_eq (by omega) (by omega)
  simp only [getEntityAtScreen, hrow]
  refine if_neg fun hin => hp ⟨hin.1, hin.2.2.1, ?_⟩
  have h1 := hin.2.1
  have h2 := hin.2.2.2
  unfold toInt at h1 h2
  omega

theorem Kept.picks {s : State} (h : Kept s) : Picks s where
  elements := (length_contents h.valid).trans h.capacity
  inside p hp := by
    obtain ⟨hx, hy, hget⟩ := getEntityAtScreen_inside h hp
    have hlt := index_lt hx hy
    rw [← h.capacity, ← length_contents h.valid] at hlt
    rw [hget, List.getElem?_eq_getElem hlt]
    exact ⟨_, rfl⟩
  drawn picture hdrawn p e hp he := by
    obtain ⟨hx, hy, hget⟩ := getEntityAtScreen_inside h hp
    rw [hget, h.pixels picture hdrawn _ _ hx hy, he, Option.map_some, Pixel.color, entityOf_packed,
      Nat.mod_eq_of_lt (h.entities picture hdrawn _ _ e hx hy he)]
  outside _ hp := getEntityAtScreen_outside hp

theorem Kept.initial (memory : Bool) : Kept (.initial memory) where
  valid := {
    complete := rfl
    full := by
      intro column hcolumn
      rw [List.mem_singleton.mp hcolumn]
      rfl
    bad := fun _ => rfl
    placed := fun hpos => absurd hpos (Nat.lt_irrefl 0)
    once := .refl _ }
  capacity := rfl
  lt := Nat.two_pow_pos 31
  pixels _ hdrawn := nomatch hdrawn
  entities _ hdrawn := nomatch hdrawn

theorem Kept.resize {s : State} (h : Kept s) {size : Size}
    (hle : s.entitypixels.capacity ≤ size.width * size.height)
    (hlt : size.width * size.height < 2 ^ 31) :
    ∃ t, step s (.resizeFramebuffer size true) = .ok t ∧ Kept t := by
  have hsize : (toInt ((size.width : ℤ) * size.height) % 2 ^ 64).toNat =
      size.width * size.height := by
    rw [← Nat.cast_mul, toInt_eq (by omega) (by omega)]
    omega
  obtain ⟨t, ht, hcapacity, -, hvalid⟩ := h.valid.tryReallocate (by omega) hle
  have hplaced : 0 < size.width * size.height → Placed [word] (size.width * size.height) :=
    fun hpos => (placed_iff hpos).mpr (by
      change 0 + 4 * (size.width * size.height) < 2 ^ 64
      omega)
  refine ⟨⟨size, t, none⟩, ?_, hvalid.mpr hplaced, hcapacity, hlt,
    fun _ hdrawn => (nomatch hdrawn), fun _ hdrawn => (nomatch hdrawn)⟩
  simp only [step, hsize]
  rw [ArrayResize.resize, ht]
  rfl

/-- The column of the pixels that were read. -/
def readColumn (size : Size) (picture : ℕ → ℕ → Pixel) (column : List (Element ℕ)) :
    List (Element ℕ) :=
  column.zipIdx.map fun p =>
    if p.2 < size.width * size.height then
      { p.1 with content := (picture (p.2 % size.width) (p.2 / size.width)).color }
    else p.1

theorem number_readColumn (size : Size) (picture : ℕ → ℕ → Pixel) (column : List (Element ℕ)) :
    (readColumn size picture column).map Element.number = column.map Element.number := by
  have hnumber : (fun p : Element ℕ × ℕ => (if p.2 < size.width * size.height then
      { p.1 with content := (picture (p.2 % size.width) (p.2 / size.width)).color }
      else p.1).number) = Element.number ∘ Prod.fst := by
    funext p
    dsimp only [Function.comp_apply]
    split <;> rfl
  rw [readColumn, List.map_map, Function.comp_def, hnumber, ← List.map_map, List.zipIdx_map_fst]

theorem getElem?_readColumn {size : Size} {picture : ℕ → ℕ → Pixel} {column : List (Element ℕ)}
    (hlength : column.length = size.width * size.height) {x y : ℕ} (hx : x < size.width)
    (hy : y < size.height) :
    ((readColumn size picture column).map Element.content)[x + y * size.width]? =
      some (picture x y).color := by
  have hlt := index_lt hx hy
  have hmod : (x + y * size.width) % size.width = x := by
    rw [Nat.add_mul_mod_self_right, Nat.mod_eq_of_lt hx]
  have hdiv : (x + y * size.width) / size.width = y := by
    rw [Nat.add_mul_div_right _ _ (Nat.zero_lt_of_lt hx), Nat.div_eq_of_lt hx, Nat.zero_add]
  have hget : column[x + y * size.width]? = some column[x + y * size.width] :=
    List.getElem?_eq_getElem (by omega)
  rw [readColumn, List.map_map, List.getElem?_map, List.getElem?_zipIdx, hget]
  simp only [Option.map_some, Function.comp_apply, Nat.zero_add, hmod, hdiv]
  rw [if_pos hlt]

theorem Kept.render {s : State} (h : Kept s) {picture : ℕ → ℕ → Pixel}
    (hentities : ∀ x y e, x < s.size.width → y < s.size.height → picture x y = .entity e →
      e < 2 ^ 32) :
    ∃ t, step s (.renderUpdate picture) = .ok t ∧ Kept t := by
  obtain ⟨column, hcolumn, hlength⟩ := column_of_valid h.valid
  have hroom : column.length = s.size.width * s.size.height := hlength.trans h.capacity
  have hread : readPixels s.size picture column = .ok (readColumn s.size picture column) :=
    if_neg (by omega)
  let t : State := { s with
    entitypixels := { s.entitypixels with columns := [readColumn s.size picture column] }
    drawn := some picture }
  have hlength' : (readColumn s.size picture column).length = s.entitypixels.capacity := by
    rw [readColumn, List.length_map, List.length_zipIdx, hlength]
  refine ⟨t, ?_, ⟨rfl, ?_, h.valid.bad, h.valid.placed, ?_⟩, h.capacity, h.lt, ?_, ?_⟩
  · simp only [step, hcolumn, List.mapM_cons, List.mapM_nil, hread]
    rfl
  · intro c hc
    rw [List.mem_singleton.mp hc]
    exact hlength'
  · have honce := h.valid.once
    rw [hcolumn, List.flatten_singleton] at honce
    change (s.entitypixels.destroyed ++
      [readColumn s.size picture column].flatten.map Element.number).Perm _
    rwa [List.flatten_singleton, number_readColumn]
  · rintro _ ⟨⟩ x y hx hy
    rw [contents_of_column (t := t.entitypixels) rfl]
    exact getElem?_readColumn hroom hx hy
  · rintro _ ⟨⟩ x y e hx hy he
    exact hentities x y e hx hy he

/-! ## Runs -/

/-- In a run that draws entities of 32 bits, and resizes with memory to sizes that do not shrink and
are numbers of 31 bits, the entity under a click is found, the pixels are never left, and nothing is
found elsewhere. -/
theorem runs_pick (memory : Bool) (actions : List Action)
    (h : MeetsAll step Carried (.initial memory) actions) :
    RelatesAll step (fun _ _ t => Picks t) (.initial memory) actions ∧ Picks (.initial memory) := by
  refine ⟨relatesAll_of_meetsAll Kept (.initial memory) (fun {s a} hs ha => ?_) actions h,
    (Kept.initial memory).picks⟩
  cases a with
  | resizeFramebuffer size memory =>
    obtain ⟨rfl, hle, hlt⟩ := ha
    obtain ⟨t, ht, hkept⟩ := hs.resize hle hlt
    exact ⟨t, ht, hkept.picks, hkept⟩
  | renderUpdate picture =>
    obtain ⟨t, ht, hkept⟩ := hs.render ha
    exact ⟨t, ht, hkept.picks, hkept⟩

theorem one_lt_two_pow : 1 < 2 ^ 31 := by decide

/-- A framebuffer of one pixel. -/
def onePixel : Size := ⟨1, 1, one_lt_two_pow, one_lt_two_pow⟩

theorem runs_pick_one :
    RelatesAll step (fun _ _ t => Picks t) (.initial true)
        [.resizeFramebuffer onePixel true, .renderUpdate fun _ _ => .entity 7] ∧
      Picks (.initial true) := by
  refine runs_pick true _ ⟨⟨rfl, by decide, by decide⟩, fun t _ => ⟨?_, fun _ _ => trivial⟩⟩
  rintro x y e - - ⟨⟩
  decide

theorem size_of_resize {s t : State} {size : Size} {memory : Bool}
    (h : step s (.resizeFramebuffer size memory) = .ok t) : t.size = size := by
  simp only [step] at h
  cases hresize : ArrayResize.resize [word] memory
      (toInt (size.width * size.height) % 2 ^ 64).toNat s.entitypixels with
  | error e =>
    rw [hresize] at h
    cases h
  | ok r =>
    rw [hresize] at h
    cases h
    rfl

theorem drawn_of_render {s t : State} {picture : ℕ → ℕ → Pixel}
    (h : step s (.renderUpdate picture) = .ok t) : t.size = s.size ∧ t.drawn = some picture := by
  simp only [step] at h
  cases hread : s.entitypixels.columns.mapM (readPixels s.size picture) with
  | error e =>
    rw [hread] at h
    cases h
  | ok columns =>
    rw [hread] at h
    cases h
    exact ⟨rfl, rfl⟩

/-- What is found in one pixel that shows an entity. -/
def foundInOne (e : ℕ) : Except ArrayResize.Misuse (Option ℕ) := do
  let s ← step (.initial true) (.resizeFramebuffer onePixel true)
  let t ← step s (.renderUpdate fun _ _ => .entity e)
  return getEntityAtScreen t 0 0

/-- The first entity of a factory is not found. -/
theorem factory_entity_lost :
    ¬ RelatesAll step (fun _ _ t => Picks t) (.initial true)
      [.resizeFramebuffer onePixel true, .renderUpdate fun _ _ => .entity (2 ^ 63)] := by
  rintro ⟨s, hs, -, t, ht, hpicks, -⟩
  have hfound : (foundInOne (2 ^ 63)).toOption = some (some 0) := by decide +kernel
  rw [foundInOne, hs] at hfound
  change (step s (.renderUpdate fun _ _ => .entity (2 ^ 63)) >>= fun t =>
    pure (getEntityAtScreen t 0 0)).toOption = some (some 0) at hfound
  rw [ht] at hfound
  have hget : getEntityAtScreen t 0 0 = some 0 := Option.some.inj hfound
  obtain ⟨hsize, hdrawn⟩ := drawn_of_render ht
  rw [size_of_resize hs] at hsize
  have hpick := hpicks.drawn _ hdrawn ⟨0, 0, by decide, by decide⟩ (2 ^ 63)
    (by rw [hsize]; exact ⟨by decide, by decide, by decide, by decide⟩) rfl
  rw [hget] at hpick
  exact absurd (Option.some.inj hpick) (by decide)

end Fimbulwinter.EntityPicking
