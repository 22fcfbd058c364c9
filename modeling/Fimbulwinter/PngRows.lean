import Mathlib.Algebra.Order.Ring.Int
import Mathlib.Data.List.Basic
import Mathlib.Tactic.Common

/-! # `core::PngStructurer::read`

The rows that are given to libpng and the bytes that it is given. What libpng does with the bytes
that it asks for is up to it. -/
namespace Fimbulwinter.PngRows

inductive ColorType
  | gray
  | rgb
  | palette
  | grayAlpha
  | rgbAlpha
  deriving DecidableEq, Repr

namespace ColorType

/-- `png_get_channels` -/
def channels : ColorType → ℕ
  | gray => 1
  | rgb => 3
  | palette => 1
  | grayAlpha => 2
  | rgbAlpha => 4

/-- The depths that libpng accepts. -/
def depths : ColorType → List ℕ
  | gray => [1, 2, 4, 8, 16]
  | palette => [1, 2, 4, 8]
  | _ => [8, 16]

end ColorType

/-- A header that libpng accepts. -/
structure Header where
  width : ℕ
  height : ℕ
  colorType : ColorType
  bitDepth : ℕ
  width_le : 1 ≤ width ∧ width ≤ 10 ^ 6
  height_le : 1 ≤ height ∧ height ≤ 10 ^ 6
  bitDepth_mem : bitDepth ∈ colorType.depths

/-- What libpng does until it is done: it asks for bytes, or it raises an error. -/
inductive Process (β : Type)
  | done (b : β)
  | error
  | request (size : ℕ) (next : List UInt8 → Process β)

/-- The header, and what reading the image and the end will do. -/
structure Info where
  header : Header
  image : Process Unit
  finish : Process Unit

/-- A call of the callback: how much was requested and what was copied; `none` is an error. -/
structure Copy where
  size : ℕ
  bytes : Option (List UInt8)

/-- `custom_read`: what is copied and the view behind it. -/
def customRead (view : List UInt8) (size : ℕ) : Option (List UInt8 × List UInt8) :=
  if view.isEmpty then none
  else if view.length < size then none
  else some (view.take size, view.drop size)

/-- What comes of a process, the calls that it made, and the view that is left. -/
def run {β : Type} : Process β → List UInt8 → Option β × List Copy × List UInt8
  | .done b, view => (some b, [], view)
  | .error, view => (none, [], view)
  | .request size next, view =>
    match customRead view size with
    | none => (none, [⟨size, none⟩], view)
    | some (bytes, view) =>
      let r := run (next bytes) view
      (r.1, ⟨size, some bytes⟩ :: r.2.1, r.2.2)

/-- The content, what libpng and the allocators answer, and how an image is stored. -/
structure World (X : Type*) where
  content : List UInt8
  createReadStruct : Bool
  createInfoStruct : Bool
  createEndInfo : Bool
  info : Process Info
  pixelsGranted : Bool
  rowsGranted : Bool
  store : Header → X → X

/-- `int` in two's complement. -/
def wrap (z : ℤ) : ℤ := (z + 2 ^ 31) % 2 ^ 32 - 2 ^ 31

/-- What is set up for `png_read_image`: the sizes and the rows, as offsets into the pixels. -/
structure Image where
  header : Header
  rowSize : ℤ
  total : ℤ
  /-- The size of the pixel buffer, in 64 bits. -/
  bytes : ℤ
  rows : List ℤ

structure Result (X : Type*) where
  x : X
  copies : List Copy
  image : Option Image

def rowSize (h : Header) : ℤ :=
  wrap (wrap (h.width * h.colorType.channels) * (h.bitDepth / 8 : ℕ))

/-- The rows are bottom to top. -/
def image (h : Header) : Image where
  header := h
  rowSize := rowSize h
  total := wrap (rowSize h * h.height)
  bytes := wrap (rowSize h * h.height) % 2 ^ 64
  rows := (List.range h.height).map fun i : ℕ => wrap (((h.height : ℤ) - 1 - i) * rowSize h)

def signature : List UInt8 := [0x89, 0x50, 0x4e, 0x47, 0x0d, 0x0a, 0x1a, 0x0a]

variable {X : Type*}

/-- `PngStructurer::read` -/
def read (w : World X) (x : X) : Result X :=
  if w.content.length < 8 then ⟨x, [], none⟩
  else if w.content.take 8 ≠ signature then ⟨x, [], none⟩
  else if w.createReadStruct = false then ⟨x, [], none⟩
  else if w.createInfoStruct = false then ⟨x, [], none⟩
  else if w.createEndInfo = false then ⟨x, [], none⟩
  else
    match run w.info (w.content.drop 8) with
    | (none, copies, _) => ⟨x, copies, none⟩
    | (some info, copies, view) =>
      if w.pixelsGranted = false then ⟨x, copies, none⟩
      else if w.rowsGranted = false then ⟨x, copies, none⟩
      else
        match run info.image view with
        | (none, more, _) => ⟨x, copies ++ more, some (image info.header)⟩
        | (some (), more, view) =>
          let last := run info.finish view
          match last.1 with
          | none => ⟨x, copies ++ (more ++ last.2.1), some (image info.header)⟩
          | some () => ⟨w.store info.header x, copies ++ (more ++ last.2.1), some (image info.header)⟩

/-! ## What should hold -/

/-- What libpng writes for a row. -/
def rowBytes (h : Header) : ℕ := (h.width * h.colorType.channels * h.bitDepth + 7) / 8

/-- The exact size of a row in whole bytes of each channel. -/
def exactRow (h : Header) : ℕ := h.width * h.colorType.channels * (h.bitDepth / 8)

/-- The sizes are exact, and the rows are blocks of the buffer from its last one to its first. -/
structure Fits (i : Image) : Prop where
  rowSize : i.rowSize = exactRow i.header
  total : i.total = (exactRow i.header * i.header.height : ℕ)
  bytes : i.bytes = i.total
  rows : ∃ block : ℕ, rowBytes i.header ≤ block ∧ i.rows.length = i.header.height ∧
    (∀ k < i.header.height, i.rows[k]? = some (((i.header.height - 1 - k) * block : ℕ) : ℤ) ∧
      (((i.header.height - 1 - k) * block + block : ℕ) : ℤ) ≤ i.bytes) ∧
    i.rows.Pairwise fun upper lower : ℤ => lower + block ≤ upper

/-- Each call copies the next bytes of the view, or fails where there are fewer or none. -/
def Delivered : List UInt8 → List Copy → Prop
  | _, [] => True
  | view, c :: cs =>
    if view.length < c.size ∨ view = [] then c.bytes = none ∧ cs = []
    else c.bytes = some (view.take c.size) ∧ Delivered (view.drop c.size) cs

structure Meets (w : World X) (x : X) (r : Result X) : Prop where
  delivered : Delivered (w.content.drop 8) r.copies
  inOrder : (r.copies.filterMap Copy.bytes).flatten <+: w.content.drop 8
  unchanged : r.image = none → r.x = x
  fits : ∀ i, r.image = some i → Fits i

/-- `png_read_image` is reached with a header. -/
structure Reaches (w : World X) (h : Header) : Prop where
  signed : 8 ≤ w.content.length ∧ w.content.take 8 = signature
  created : w.createReadStruct = true ∧ w.createInfoStruct = true ∧ w.createEndInfo = true
  info : ∃ info, (run w.info (w.content.drop 8)).1 = some info ∧ info.header = h
  granted : w.pixelsGranted = true ∧ w.rowsGranted = true

/-! ## The callback -/

theorem customRead_cases (view : List UInt8) (size : ℕ) :
    ((view.length < size ∨ view = []) ∧ customRead view size = none) ∨
      (¬ (view.length < size ∨ view = []) ∧
        customRead view size = some (view.take size, view.drop size)) := by
  unfold customRead
  by_cases hempty : view = []
  · exact .inl ⟨.inr hempty, by rw [hempty]; rfl⟩
  rw [if_neg (mt List.isEmpty_iff.mp hempty)]
  by_cases hless : view.length < size
  · exact .inl ⟨.inl hless, if_pos hless⟩
  · exact .inr ⟨not_or.mpr ⟨hless, hempty⟩, if_neg hless⟩

/-- By induction on what libpng does; an error ends it. -/
theorem run_delivered {β : Type} (p : Process β) (view : List UInt8) (more : List Copy)
    (herror : (run p view).1 = none → more = []) (hrest : Delivered (run p view).2.2 more) :
    Delivered view ((run p view).2.1 ++ more) := by
  induction p generalizing view with
  | done b => exact hrest
  | error =>
    rw [herror rfl]
    exact trivial
  | request size next ih =>
    obtain ⟨hfew, hnone⟩ | ⟨hmany, hsome⟩ := customRead_cases view size
    · simp only [run, hnone] at herror ⊢
      rw [herror trivial, List.append_nil, Delivered, if_pos hfew]
      exact ⟨rfl, rfl⟩
    · simp only [run, hsome] at herror hrest ⊢
      rw [List.cons_append, Delivered, if_neg hmany]
      exact ⟨rfl, ih _ _ herror hrest⟩

theorem Delivered.inOrder {view : List UInt8} {copies : List Copy} (h : Delivered view copies) :
    (copies.filterMap Copy.bytes).flatten <+: view := by
  induction copies generalizing view with
  | nil => exact List.nil_prefix
  | cons c cs ih =>
    rw [Delivered] at h
    split_ifs at h with hfew
    · obtain ⟨hnone, rfl⟩ := h
      rw [List.filterMap_cons_none hnone]
      exact List.nil_prefix
    · rw [List.filterMap_cons_some h.1, List.flatten_cons]
      have hprefix := (List.prefix_append_right_inj (view.take c.size)).mpr (ih h.2)
      rwa [List.take_append_drop] at hprefix

/-! ## The sizes -/

theorem wrap_eq {z : ℤ} (hle : 0 ≤ z) (hlt : z < 2 ^ 31) : wrap z = z := by
  unfold wrap
  omega

theorem wrap_lt (z : ℤ) : wrap z < 2 ^ 31 := by
  unfold wrap
  omega

theorem Header.depth_cases (h : Header) : h.bitDepth = 1 ∨ h.bitDepth = 2 ∨ h.bitDepth = 4 ∨
    h.bitDepth = 8 ∨ h.bitDepth = 16 := by
  have hmem := h.bitDepth_mem
  cases hc : h.colorType <;> rw [hc] at hmem <;> simp [ColorType.depths] at hmem <;> omega

theorem Header.samples_pos (h : Header) : 1 ≤ h.width * h.colorType.channels := by
  refine Nat.mul_pos h.width_le.1 ?_
  cases h.colorType <;> decide

theorem Header.samples_le (h : Header) : h.width * h.colorType.channels ≤ 10 ^ 6 * 4 := by
  refine Nat.mul_le_mul h.width_le.2 ?_
  cases h.colorType <;> decide

theorem exactRow_le (h : Header) : exactRow h ≤ 10 ^ 6 * 4 * 2 := by
  refine Nat.mul_le_mul h.samples_le ?_
  have := h.depth_cases
  omega

/-- The size of a row does not overflow. -/
theorem rowSize_eq (h : Header) : rowSize h = exactRow h := by
  have hsamples := h.samples_le
  have hexact := exactRow_le h
  have hinner : wrap (h.width * h.colorType.channels) = (h.width * h.colorType.channels : ℕ) := by
    rw [← Nat.cast_mul, wrap_eq (Int.natCast_nonneg _) (by omega)]
  rw [rowSize, hinner, ← Nat.cast_mul]
  exact wrap_eq (Int.natCast_nonneg _) (by unfold exactRow at hexact; omega)

theorem rowBytes_pos (h : Header) : 1 ≤ rowBytes h := by
  have hpos : 1 ≤ h.width * h.colorType.channels * h.bitDepth := by
    refine Nat.mul_pos h.samples_pos ?_
    have := h.depth_cases
    omega
  unfold rowBytes
  omega

theorem rowBytes_eq {h : Header} (hdepth : 8 ≤ h.bitDepth) : rowBytes h = exactRow h := by
  have hcases : h.bitDepth = 8 ∨ h.bitDepth = 16 := by
    have := h.depth_cases
    omega
  unfold rowBytes exactRow
  rcases hcases with hd | hd <;> rw [hd] <;> omega

/-- The rows of an image whose size is a number of 31 bits. -/
theorem rows_eq {h : Header} (hlt : exactRow h * h.height < 2 ^ 31) :
    (image h).rows = (List.range h.height).map fun k =>
      (((h.height - 1 - k) * exactRow h : ℕ) : ℤ) := by
  refine List.map_congr_left fun k hk => ?_
  have hk' := List.mem_range.mp hk
  have hcast : (h.height : ℤ) - 1 - k = (h.height - 1 - k : ℕ) := by omega
  have hle : (h.height - 1 - k) * exactRow h ≤ exactRow h * h.height := by
    rw [Nat.mul_comm (exactRow h)]
    exact Nat.mul_le_mul_right _ (by omega)
  rw [rowSize_eq, hcast, ← Nat.cast_mul]
  exact wrap_eq (Int.natCast_nonneg _) (by omega)

/-- The rows fit exactly if a channel has whole bytes and the size of the image is a number of 31
bits. -/
theorem fits_iff (h : Header) :
    Fits (image h) ↔ 8 ≤ h.bitDepth ∧ exactRow h * h.height < 2 ^ 31 := by
  have htotal : (image h).total = wrap (exactRow h * h.height : ℕ) := by
    rw [image, rowSize_eq, Nat.cast_mul]
  constructor
  · intro hfits
    have hlt : exactRow h * h.height < 2 ^ 31 := by
      have hwrap := wrap_lt (exactRow h * h.height : ℕ)
      have hexact := hfits.total
      rw [htotal] at hexact
      have heq : wrap (exactRow h * h.height : ℕ) = (exactRow h * h.height : ℕ) := hexact
      omega
    refine ⟨?_, hlt⟩
    by_contra hshort
    obtain ⟨block, hblock, -, hrows, -⟩ := hfits.rows
    have hfirst := (hrows 0 h.height_le.1).2
    have hzero : exactRow h = 0 := by
      rw [exactRow, Nat.div_eq_of_lt (Nat.not_le.mp hshort), Nat.mul_zero]
    have hbytes : (image h).bytes = 0 := by
      rw [hfits.bytes, htotal, hzero, Nat.zero_mul]
      rfl
    have hpos : 1 ≤ rowBytes h := rowBytes_pos h
    have hblock' : rowBytes h ≤ block := hblock
    have hle : block ≤ (h.height - 1 - 0) * block + block := Nat.le_add_left _ _
    have hfirst' : (((h.height - 1 - 0) * block + block : ℕ) : ℤ) ≤ 0 := hbytes ▸ hfirst
    omega
  · rintro ⟨hdepth, hlt⟩
    have hexact : (image h).total = (exactRow h * h.height : ℕ) := by
      rw [htotal]
      exact wrap_eq (Int.natCast_nonneg _) (by omega)
    have hbytes : (image h).bytes = (image h).total := by
      have hmod : (image h).bytes = (image h).total % 2 ^ 64 := rfl
      omega
    have hblock (k : ℕ) (hk : k < h.height) :
        (h.height - 1 - k) * exactRow h + exactRow h ≤ exactRow h * h.height := by
      rw [← Nat.succ_mul, Nat.mul_comm (exactRow h)]
      exact Nat.mul_le_mul_right _ (by omega)
    refine ⟨rowSize_eq h, hexact, hbytes, exactRow h, (rowBytes_eq hdepth).le, ?_, fun k hk => ?_, ?_⟩
    · exact (List.length_map _).trans List.length_range
    · refine ⟨?_, ?_⟩
      · rw [rows_eq hlt, List.getElem?_map, List.getElem?_range (show k < h.height from hk)]
        rfl
      · rw [hbytes, hexact]
        exact_mod_cast hblock k hk
    · rw [rows_eq hlt, List.pairwise_map]
      refine List.pairwise_lt_range.imp_of_mem fun {j k} hj hk hjk => ?_
      have hk' := List.mem_range.mp hk
      have hle : (h.height - 1 - k) * exactRow h + exactRow h ≤ (h.height - 1 - j) * exactRow h := by
        rw [← Nat.succ_mul]
        exact Nat.mul_le_mul_right _ (by omega)
      exact_mod_cast hle

/-! ## Reading -/

theorem read_of_not_started {w : World X} {x : X}
    (h : ¬ ((8 ≤ w.content.length ∧ w.content.take 8 = signature) ∧
      w.createReadStruct = true ∧ w.createInfoStruct = true ∧ w.createEndInfo = true)) :
    read w x = ⟨x, [], none⟩ := by
  rw [read]
  by_cases h1 : w.content.length < 8
  · exact if_pos h1
  by_cases h2 : w.content.take 8 ≠ signature
  · rw [if_neg h1, if_pos h2]
  by_cases h3 : w.createReadStruct = false
  · rw [if_neg h1, if_neg h2, if_pos h3]
  by_cases h4 : w.createInfoStruct = false
  · rw [if_neg h1, if_neg h2, if_neg h3, if_pos h4]
  by_cases h5 : w.createEndInfo = false
  · rw [if_neg h1, if_neg h2, if_neg h3, if_neg h4, if_pos h5]
  exact absurd ⟨⟨Nat.le_of_not_lt h1, of_not_not h2⟩, eq_true_of_ne_false h3,
    eq_true_of_ne_false h4, eq_true_of_ne_false h5⟩ h

/-- The calls of the callback are delivered; the image is set up where it is reached, and nothing
else happens where it is not. -/
theorem read_spec (w : World X) (x : X) :
    Delivered (w.content.drop 8) (read w x).copies ∧
      ((∃ h, Reaches w h ∧ (read w x).image = some (image h)) ∨
        ((∀ h, ¬ Reaches w h) ∧ (read w x).image = none ∧ (read w x).x = x)) := by
  by_cases hstart : (8 ≤ w.content.length ∧ w.content.take 8 = signature) ∧
      w.createReadStruct = true ∧ w.createInfoStruct = true ∧ w.createEndInfo = true
  swap
  · rw [read_of_not_started hstart]
    exact ⟨trivial, .inr ⟨fun h hreach => hstart ⟨hreach.signed, hreach.created⟩, rfl, rfl⟩⟩
  obtain ⟨⟨hlength, hsignature⟩, hread, hinfo, hend⟩ := hstart
  have hdelivered := run_delivered w.info (w.content.drop 8)
  rw [read, if_neg (Nat.not_lt.mpr hlength), if_neg (not_not_intro hsignature),
    if_neg (by simp [hread]), if_neg (by simp [hinfo]), if_neg (by simp [hend])]
  cases hrun : run w.info (w.content.drop 8) with
  | mk result rest =>
    obtain ⟨copies, view⟩ := rest
    rw [hrun] at hdelivered
    have hcopies := hdelivered [] (fun _ => rfl) trivial
    rw [List.append_nil] at hcopies
    cases result with
    | none =>
      refine ⟨hcopies, .inr ⟨fun h hreach => ?_, rfl, rfl⟩⟩
      obtain ⟨info, hsome, -⟩ := hreach.info
      rw [hrun] at hsome
      cases hsome
    | some info =>
      by_cases hgranted : w.pixelsGranted = true ∧ w.rowsGranted = true
      swap
      · have hnot (h : Header) : ¬ Reaches w h := fun hreach => hgranted hreach.granted
        rcases Bool.eq_false_or_eq_true w.pixelsGranted with hpixels | hpixels
        · have hrows : w.rowsGranted = false := Bool.eq_false_iff.mpr fun h => hgranted ⟨hpixels, h⟩
          simp only [hpixels, hrows, Bool.true_eq_false, if_false, if_true]
          exact ⟨hcopies, .inr ⟨hnot, trivial, trivial⟩⟩
        · simp only [hpixels, if_true]
          exact ⟨hcopies, .inr ⟨hnot, trivial, trivial⟩⟩
      have hreach : Reaches w info.header :=
        ⟨⟨hlength, hsignature⟩, ⟨hread, hinfo, hend⟩, ⟨info, by rw [hrun], rfl⟩, hgranted⟩
      simp only [hgranted.1, hgranted.2, Bool.true_eq_false, if_false]
      have himage := run_delivered info.image view
      cases hrun' : run info.image view with
      | mk result' rest' =>
        obtain ⟨more, view'⟩ := rest'
        rw [hrun'] at himage
        cases result' with
        | none =>
          have hmore := himage [] (fun _ => rfl) trivial
          rw [List.append_nil] at hmore
          exact ⟨hdelivered more (fun h => nomatch h) hmore, .inl ⟨_, hreach, rfl⟩⟩
        | some u =>
          cases u
          have hlast := run_delivered info.finish view' [] (fun _ => rfl) trivial
          rw [List.append_nil] at hlast
          have hall := hdelivered _ (fun h => nomatch h) (himage _ (fun h => nomatch h) hlast)
          cases hresult : (run info.finish view').1 with
          | none =>
            simp only [hresult]
            exact ⟨hall, .inl ⟨_, hreach, rfl⟩⟩
          | some u =>
            cases u
            simp only [hresult]
            exact ⟨hall, .inl ⟨_, hreach, rfl⟩⟩

/-- The rows are right exactly if the image is not reached with a depth below eight, or with an
image whose size is no number of 31 bits. The calls of the callback are always right. -/
theorem read_meets_iff (w : World X) (x : X) :
    Meets w x (read w x) ↔
      ∀ h, Reaches w h → 8 ≤ h.bitDepth ∧ exactRow h * h.height < 2 ^ 31 := by
  obtain ⟨hdelivered, hcases⟩ := read_spec w x
  obtain ⟨h, hreach, himage⟩ | ⟨hnot, himage, hx⟩ := hcases
  · have hunique (h' : Header) (hreach' : Reaches w h') : h' = h := by
      obtain ⟨info, hinfo, rfl⟩ := hreach.info
      obtain ⟨info', hinfo', rfl⟩ := hreach'.info
      rw [hinfo] at hinfo'
      cases hinfo'
      rfl
    constructor
    · intro hmeets h' hreach'
      rw [hunique h' hreach']
      exact (fits_iff h).mp (hmeets.fits _ himage)
    · intro hcond
      refine ⟨hdelivered, hdelivered.inOrder, fun hnone => ?_, fun i hi => ?_⟩
      · rw [himage] at hnone
        cases hnone
      · rw [himage] at hi
        cases hi
        exact (fits_iff h).mpr (hcond h hreach)
  · refine ⟨fun _ h hreach => absurd hreach (hnot h), fun _ => ?_⟩
    refine ⟨hdelivered, hdelivered.inOrder, fun _ => hx, fun i hi => ?_⟩
    rw [himage] at hi
    cases hi

/-- A gray image of one bit and one pixel. -/
def bilevel : Header := ⟨1, 1, .gray, 1, by decide, by decide, by decide⟩

/-- libpng asks for the header and for the image, and both are there. -/
def bilevelWorld : World ℕ where
  content := signature ++ List.replicate 40 0
  createReadStruct := true
  createInfoStruct := true
  createEndInfo := true
  info := .request 25 fun _ => .done ⟨bilevel, .request 10 fun _ => .done (), .done ()⟩
  pixelsGranted := true
  rowsGranted := true
  store := fun _ n => n + 1

/-- The row of the image is a byte, and the buffer has none. -/
theorem bilevel_row_outside : ¬ Meets bilevelWorld 0 (read bilevelWorld 0) := by
  intro hmeets
  obtain ⟨-, hcases⟩ := read_spec bilevelWorld 0
  obtain ⟨h, hreach, himage⟩ | ⟨hnot, -, -⟩ := hcases
  · obtain ⟨info, hinfo, rfl⟩ := hreach.info
    have hheader : info.header = bilevel := by
      cases hinfo
      rfl
    have hdepth := ((fits_iff info.header).mp (hmeets.fits _ himage)).1
    rw [hheader] at hdepth
    exact absurd hdepth (by decide)
  · exact hnot bilevel ⟨by decide, ⟨rfl, rfl, rfl⟩, ⟨_, rfl, rfl⟩, ⟨rfl, rfl⟩⟩

end Fimbulwinter.PngRows
