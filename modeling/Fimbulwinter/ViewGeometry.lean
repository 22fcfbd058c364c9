import Fimbulwinter.ViewFrames
import Mathlib.Algebra.BigOperators.Group.List.Basic
import Mathlib.Algebra.Ring.Nat

/-! # Where views end up

Numbers instead of dimensions that wrap around: in a group with room for its children, they lie
inside of the group, and those of a row or a column do not overlap. -/
namespace Fimbulwinter.Gui

/-- The place of a view, without wrapping around -/
structure Rect where
  left : ℕ
  top : ℕ
  right : ℕ
  bottom : ℕ
  deriving DecidableEq, Repr

def View.rect (view : View) : Rect where
  left := view.offset.width.toNat
  top := view.offset.height.toNat
  right := view.offset.width.toNat + view.size.width.value.toNat
  bottom := view.offset.height.toNat + view.size.height.value.toNat

structure Rect.Inside (inner outer : Rect) : Prop where
  left : outer.left ≤ inner.left
  top : outer.top ≤ inner.top
  right : inner.right ≤ outer.right
  bottom : inner.bottom ≤ outer.bottom

namespace View

variable {view : View}

/-- The height that a view and its margins take -/
def fullHeight (view : View) : ℕ :=
  view.margin.top.toNat + view.margin.bottom.toNat + view.size.height.value.toNat

def fullWidth (view : View) : ℕ :=
  view.margin.left.toNat + view.margin.right.toNat + view.size.width.value.toNat

/-- In the middle, a difference between the margins counts twice. -/
def CentredH (view : View) (mask : Gravity) (height : ℕ) : Prop :=
  view.size.height.type ≠ .parent →
    (view.gravity.mask mask).has Gravity.verticalBottom = false →
    (view.gravity.mask mask).has Gravity.verticalCentre = true →
    view.margin.bottom.toNat ≤ (height - view.size.height.value.toNat) / 2 + view.margin.top.toNat ∧
      view.margin.top.toNat ≤
        (height - view.size.height.value.toNat) / 2 + view.margin.bottom.toNat

def CentredW (view : View) (mask : Gravity) (width : ℕ) : Prop :=
  view.size.width.type ≠ .parent →
    (view.gravity.mask mask).has Gravity.horizontalRight = false →
    (view.gravity.mask mask).has Gravity.horizontalCentre = true →
    view.margin.right.toNat ≤ (width - view.size.width.value.toNat) / 2 + view.margin.left.toNat ∧
      view.margin.left.toNat ≤ (width - view.size.width.value.toNat) / 2 + view.margin.right.toNat

end View

/-- Things lie one after another from a point on, each within what it takes. -/
def InOrder {α : Type*} (start stop full : α → ℕ) : ℕ → List α → Prop
  | _, [] => True
  | point, a :: as =>
    point ≤ start a ∧ stop a ≤ point + full a ∧ InOrder start stop full (point + full a) as

theorem InOrder.bounds {α : Type*} {start stop full : α → ℕ} {point : ℕ} {as : List α}
    (h : InOrder start stop full point as) :
    (as.Pairwise fun a b => stop a ≤ start b) ∧
      ∀ a ∈ as, point ≤ start a ∧ stop a ≤ point + (as.map full).sum := by
  induction as generalizing point with
  | nil => simp
  | cons a as ih =>
    obtain ⟨hstart, hstop, hrest⟩ := h
    obtain ⟨hpairwise, hbounds⟩ := ih hrest
    simp only [List.map_cons, List.sum_cons]
    refine ⟨List.pairwise_cons.mpr ⟨fun b hb => Nat.le_trans hstop (hbounds b hb).1, hpairwise⟩, ?_⟩
    intro b hb
    rcases List.mem_cons.mp hb with rfl | hb
    · omega
    · have := hbounds b hb
      omega

/-- A dimension from the start of what there is -/
theorem start_inside {offset size extent before after : Dimen}
    (hsum : offset.toNat + size.toNat < 2 ^ 32)
    (hfits : before.toNat + after.toNat + extent.toNat ≤ size.toNat) :
    (offset + before).toNat = offset.toNat + before.toNat := by
  rw [BitVec.toNat_add]
  omega

/-- From the end -/
theorem end_inside {offset size extent before after : Dimen}
    (hsum : offset.toNat + size.toNat < 2 ^ 32)
    (hfits : before.toNat + after.toNat + extent.toNat ≤ size.toNat) :
    (offset + (size - extent - after)).toNat =
      offset.toNat + (size.toNat - extent.toNat - after.toNat) := by
  have hextent : (size - extent).toNat = size.toNat - extent.toNat :=
    BitVec.toNat_sub_of_le (BitVec.le_def.mpr (by omega))
  have hafter : (size - extent - after).toNat = size.toNat - extent.toNat - after.toNat := by
    rw [BitVec.toNat_sub_of_le (BitVec.le_def.mpr (by omega)), hextent]
  rw [BitVec.toNat_add, hafter]
  omega

/-- In the middle -/
theorem centre_inside {offset size extent before after : Dimen}
    (hsum : offset.toNat + size.toNat < 2 ^ 32)
    (hfits : before.toNat + after.toNat + extent.toNat ≤ size.toNat)
    (hbefore : after.toNat ≤ (size.toNat - extent.toNat) / 2 + before.toNat)
    (hafter : before.toNat ≤ (size.toNat - extent.toNat) / 2 + after.toNat) :
    (offset + (size - extent) / 2 + (before - after)).toNat =
      offset.toNat + ((size.toNat - extent.toNat) / 2 + before.toNat - after.toNat) := by
  have hextent : (size - extent).toNat = size.toNat - extent.toNat :=
    BitVec.toNat_sub_of_le (BitVec.le_def.mpr (by omega))
  have hhalf : ((size - extent) / 2).toNat = (size.toNat - extent.toNat) / 2 := by
    rw [BitVec.toNat_udiv, hextent]
    rfl
  have hsum' : (offset + (size - extent) / 2).toNat =
      offset.toNat + (size.toNat - extent.toNat) / 2 := by
    rw [BitVec.toNat_add, hhalf]
    omega
  have hafterLt := after.isLt
  rcases Nat.lt_or_ge before.toNat after.toNat with hlt | hge
  · have hmod : (2 ^ 32 - after.toNat + before.toNat) % 2 ^ 32 =
        2 ^ 32 - after.toNat + before.toNat := Nat.mod_eq_of_lt (by omega)
    rw [BitVec.toNat_add, hsum', BitVec.toNat_sub, hmod]
    omega
  · rw [BitVec.toNat_add, hsum', BitVec.toNat_sub_of_le (BitVec.le_def.mpr hge)]
    omega

/-- What is left after something that fits -/
theorem advance_inside {offset size : Dimen} (taken : Dimen)
    (hsum : offset.toNat + size.toNat < 2 ^ 32) (hfits : taken.toNat ≤ size.toNat) :
    (offset + taken).toNat = offset.toNat + taken.toNat ∧
      (size - taken).toNat = size.toNat - taken.toNat := by
  refine ⟨?_, BitVec.toNat_sub_of_le (BitVec.le_def.mpr hfits)⟩
  rw [BitVec.toNat_add]
  omega

namespace View

variable {view : View} {mask : Gravity} {offset : Offset} {size : Size}

/-- Between its margins, a view is inside of what is left for it from top to bottom. -/
theorem PlacedIn.insideH (h : view.PlacedIn mask offset size)
    (hsum : offset.height.toNat + size.height.value.toNat < 2 ^ 32)
    (hfits : view.fullHeight ≤ size.height.value.toNat)
    (hcentred : view.CentredH mask size.height.value.toNat) :
    offset.height.toNat ≤ view.rect.top ∧
      view.rect.bottom ≤ offset.height.toNat + size.height.value.toNat := by
  have hoffset : view.offset.height = view.topIn mask offset.height size.height.value := by
    have := h.1
    rw [refresh_offset] at this
    rw [← this]
  unfold fullHeight at hfits
  simp only [rect, hoffset]
  unfold topIn
  split_ifs with hparent hbottom hcentre
  · rw [start_inside hsum hfits]
    omega
  · rw [end_inside hsum hfits]
    omega
  · obtain ⟨htop, hbottom'⟩ := hcentred hparent (by simpa using hbottom) hcentre
    rw [centre_inside hsum hfits htop hbottom']
    omega
  · rw [start_inside hsum hfits]
    omega

/-- From left to right -/
theorem PlacedIn.insideW (h : view.PlacedIn mask offset size)
    (hsum : offset.width.toNat + size.width.value.toNat < 2 ^ 32)
    (hfits : view.fullWidth ≤ size.width.value.toNat)
    (hcentred : view.CentredW mask size.width.value.toNat) :
    offset.width.toNat ≤ view.rect.left ∧
      view.rect.right ≤ offset.width.toNat + size.width.value.toNat := by
  have hoffset : view.offset.width = view.leftIn mask offset.width size.width.value := by
    have := h.1
    rw [refresh_offset] at this
    rw [← this]
  unfold fullWidth at hfits
  simp only [rect, hoffset]
  unfold leftIn
  split_ifs with hparent hright hcentre
  · rw [start_inside hsum hfits]
    omega
  · rw [end_inside hsum hfits]
    omega
  · obtain ⟨hleft, hright'⟩ := hcentred hparent (by simpa using hright) hcentre
    rw [centre_inside hsum hfits hleft hright']
    omega
  · rw [start_inside hsum hfits]
    omega

/-- In a row, a view keeps to the left of what is left for it. -/
theorem PlacedIn.left (h : view.PlacedIn Layout.horizontal.mask offset size)
    (hsum : offset.width.toNat + size.width.value.toNat < 2 ^ 32)
    (hfits : view.fullWidth ≤ size.width.value.toNat) :
    view.rect.left = offset.width.toNat + view.margin.left.toNat := by
  have hoffset : view.offset.width = offset.width + view.margin.left := by
    have := h.1
    rw [refresh_offset] at this
    rw [← this]
    simp only [leftIn]
    have hmask (flag : BitVec 16) (hflag : Layout.horizontal.mask.flags &&& flag = 0) :
        (view.gravity.mask Layout.horizontal.mask).has flag = false := by
      simp [Gravity.has, Gravity.mask, BitVec.and_assoc, hflag]
    rw [hmask _ (by decide), hmask _ (by decide)]
    simp
  unfold fullWidth at hfits
  rw [rect, hoffset]
  exact start_inside hsum hfits

/-- In a column, a view keeps to the top of what is left for it. -/
theorem PlacedIn.top (h : view.PlacedIn Layout.vertical.mask offset size)
    (hsum : offset.height.toNat + size.height.value.toNat < 2 ^ 32)
    (hfits : view.fullHeight ≤ size.height.value.toNat) :
    view.rect.top = offset.height.toNat + view.margin.top.toNat := by
  have hoffset : view.offset.height = offset.height + view.margin.top := by
    have := h.1
    rw [refresh_offset] at this
    rw [← this]
    simp only [topIn]
    have hmask (flag : BitVec 16) (hflag : Layout.vertical.mask.flags &&& flag = 0) :
        (view.gravity.mask Layout.vertical.mask).has flag = false := by
      simp [Gravity.has, Gravity.mask, BitVec.and_assoc, hflag]
    rw [hmask _ (by decide), hmask _ (by decide)]
    simp
  unfold fullHeight at hfits
  rw [rect, hoffset]
  exact start_inside hsum hfits

end View

namespace Screen

variable {views : ViewId → View} {children : List ViewId} {offset : Offset} {size : Size}

/-- The children of a row with room for them lie next to each other, each inside of the row. -/
theorem PlacedFrom.row (h : PlacedFrom views .horizontal offset size children)
    (hwidth : offset.width.toNat + size.width.value.toNat < 2 ^ 32)
    (hheight : offset.height.toNat + size.height.value.toNat < 2 ^ 32)
    (hfitsW : (children.map fun child => (views child).fullWidth).sum ≤ size.width.value.toNat)
    (hfitsH : ∀ child ∈ children, (views child).fullHeight ≤ size.height.value.toNat ∧
      (views child).CentredH Layout.horizontal.mask size.height.value.toNat) :
    InOrder (fun child => (views child).rect.left) (fun child => (views child).rect.right)
        (fun child => (views child).fullWidth) offset.width.toNat children ∧
      ∀ child ∈ children, offset.height.toNat ≤ (views child).rect.top ∧
        (views child).rect.bottom ≤ offset.height.toNat + size.height.value.toNat := by
  induction children generalizing offset size with
  | nil => exact ⟨trivial, by simp⟩
  | cons child children ih =>
    obtain ⟨hplaced, hrest⟩ := h
    simp only [List.map_cons, List.sum_cons] at hfitsW
    have hleft := hplaced.left hwidth (by omega)
    have hinside := hplaced.insideH hheight (hfitsH child (List.mem_cons_self ..)).1
      (hfitsH child (List.mem_cons_self ..)).2
    have htaken : ((views child).margin.width + (views child).size.width.value).toNat =
        (views child).fullWidth := by
      unfold View.fullWidth at hfitsW ⊢
      rw [Margin.width, BitVec.toNat_add, BitVec.toNat_add]
      omega
    obtain ⟨hoffset, hsize⟩ := advance_inside ((views child).margin.width +
      (views child).size.width.value) hwidth (by omega)
    rw [htaken] at hoffset hsize
    obtain ⟨horder, hrows⟩ := ih hrest (by simp only [Layout.advance]; omega) hheight
      (by simp only [Layout.advance]; omega)
      fun sibling hsibling => hfitsH sibling (List.mem_cons_of_mem _ hsibling)
    simp only [Layout.advance, hoffset] at horder
    refine ⟨⟨by dsimp only; omega, ?_, horder⟩, List.forall_mem_cons.mpr ⟨hinside, hrows⟩⟩
    simp only [View.rect, View.fullWidth] at hleft ⊢
    omega

/-- The children of a column with room for them lie below each other, each inside of the
column. -/
theorem PlacedFrom.column (h : PlacedFrom views .vertical offset size children)
    (hwidth : offset.width.toNat + size.width.value.toNat < 2 ^ 32)
    (hheight : offset.height.toNat + size.height.value.toNat < 2 ^ 32)
    (hfitsH : (children.map fun child => (views child).fullHeight).sum ≤ size.height.value.toNat)
    (hfitsW : ∀ child ∈ children, (views child).fullWidth ≤ size.width.value.toNat ∧
      (views child).CentredW Layout.vertical.mask size.width.value.toNat) :
    InOrder (fun child => (views child).rect.top) (fun child => (views child).rect.bottom)
        (fun child => (views child).fullHeight) offset.height.toNat children ∧
      ∀ child ∈ children, offset.width.toNat ≤ (views child).rect.left ∧
        (views child).rect.right ≤ offset.width.toNat + size.width.value.toNat := by
  induction children generalizing offset size with
  | nil => exact ⟨trivial, by simp⟩
  | cons child children ih =>
    obtain ⟨hplaced, hrest⟩ := h
    simp only [List.map_cons, List.sum_cons] at hfitsH
    have htop := hplaced.top hheight (by omega)
    have hinside := hplaced.insideW hwidth (hfitsW child (List.mem_cons_self ..)).1
      (hfitsW child (List.mem_cons_self ..)).2
    have htaken : ((views child).margin.height + (views child).size.height.value).toNat =
        (views child).fullHeight := by
      unfold View.fullHeight at hfitsH ⊢
      rw [Margin.height, BitVec.toNat_add, BitVec.toNat_add]
      omega
    obtain ⟨hoffset, hsize⟩ := advance_inside ((views child).margin.height +
      (views child).size.height.value) hheight (by omega)
    rw [htaken] at hoffset hsize
    obtain ⟨horder, hcolumns⟩ := ih hrest hwidth (by simp only [Layout.advance]; omega)
      (by simp only [Layout.advance]; omega)
      fun sibling hsibling => hfitsW sibling (List.mem_cons_of_mem _ hsibling)
    simp only [Layout.advance, hoffset] at horder
    refine ⟨⟨by dsimp only; omega, ?_, horder⟩, List.forall_mem_cons.mpr ⟨hinside, hcolumns⟩⟩
    simp only [View.rect, View.fullHeight] at htop ⊢
    omega

/-- The children of a relative group are placed independently. -/
theorem PlacedFrom.relative (h : PlacedFrom views .relative offset size children) :
    ∀ child ∈ children, (views child).PlacedIn Layout.relative.mask offset size := by
  induction children with
  | nil => simp
  | cons child children ih => exact List.forall_mem_cons.mpr ⟨h.1, ih h.2⟩

variable {s : Screen} {root group : ViewId}

/-- A group has room for its children: they fit with their margins, next to or below each other
if the group is a row or a column, and nothing wraps around. -/
def HasRoom (s : Screen) (group : ViewId) : Prop :=
  let view := s.views group
  let height := view.size.height.value.toNat
  let width := view.size.width.value.toNat
  view.rect.right < 2 ^ 32 ∧ view.rect.bottom < 2 ^ 32 ∧
    match view.content with
    | .group .horizontal children =>
      (children.map fun child => (s.views child).fullWidth).sum ≤ width ∧
        ∀ child ∈ children, (s.views child).fullHeight ≤ height ∧
          (s.views child).CentredH Layout.horizontal.mask height
    | .group .vertical children =>
      (children.map fun child => (s.views child).fullHeight).sum ≤ height ∧
        ∀ child ∈ children, (s.views child).fullWidth ≤ width ∧
          (s.views child).CentredW Layout.vertical.mask width
    | .group .relative children =>
      ∀ child ∈ children, ((s.views child).fullHeight ≤ height ∧
          (s.views child).CentredH Layout.relative.mask height) ∧
        (s.views child).fullWidth ≤ width ∧ (s.views child).CentredW Layout.relative.mask width
    | _ => True

/-- Children lie inside of their group, and in a row or a column they lie in order. -/
def Tidy (s : Screen) (group : ViewId) : Prop :=
  (∀ child ∈ (s.views group).children, (s.views child).rect.Inside (s.views group).rect) ∧
    match (s.views group).content with
    | .group .horizontal children =>
      children.Pairwise fun a b => (s.views a).rect.right ≤ (s.views b).rect.left
    | .group .vertical children =>
      children.Pairwise fun a b => (s.views a).rect.bottom ≤ (s.views b).rect.top
    | _ => True

theorem Placed.tidy (h : s.Placed group) (room : s.HasRoom group) : s.Tidy group := by
  unfold Placed at h
  obtain ⟨hwidth, hheight, hroom⟩ := room
  unfold Tidy
  cases hcontent : (s.views group).content with
  | color _ | text _ _ | texture _ => simp [View.children, hcontent]
  | group layout children =>
    have hchildren : (s.views group).children = children := by simp [View.children, hcontent]
    rw [hchildren]
    simp only [hcontent] at h hroom
    cases layout with
    | horizontal =>
      obtain ⟨horder, hrows⟩ := h.row hwidth hheight hroom.1 hroom.2
      obtain ⟨hpairwise, hbounds⟩ := horder.bounds
      refine ⟨fun child hchild => ?_, hpairwise⟩
      obtain ⟨hleft, hright⟩ := hbounds child hchild
      exact ⟨hleft, (hrows child hchild).1, Nat.le_trans hright (Nat.add_le_add_left hroom.1 _),
        (hrows child hchild).2⟩
    | vertical =>
      obtain ⟨horder, hcolumns⟩ := h.column hwidth hheight hroom.1 hroom.2
      obtain ⟨hpairwise, hbounds⟩ := horder.bounds
      refine ⟨fun child hchild => ?_, hpairwise⟩
      obtain ⟨htop, hbottom⟩ := hbounds child hchild
      exact ⟨(hcolumns child hchild).1, htop, (hcolumns child hchild).2,
        Nat.le_trans hbottom (Nat.add_le_add_left hroom.1 _)⟩
    | relative =>
      refine ⟨fun child hchild => ?_, trivial⟩
      have hplaced := h.relative child hchild
      obtain ⟨⟨hfitsH, hcentredH⟩, hfitsW, hcentredW⟩ := hroom child hchild
      obtain ⟨htop, hbottom⟩ := hplaced.insideH hheight hfitsH hcentredH
      obtain ⟨hleft, hright⟩ := hplaced.insideW hwidth hfitsW hcentredW
      exact ⟨hleft, htop, hright, hbottom⟩

/-- At the end of every frame, the children of a group that has room for them lie inside of it,
and those of a row or a column do not overlap. -/
theorem frame_tidy {start : Screen} (initial : start.Initial root)
    (h : Reached (Screen.step root) Screen.Accepts start s)
    (hreach : (s.refresh s.count root).Reach root group)
    (room : (s.refresh s.count root).HasRoom group) : (s.refresh s.count root).Tidy group :=
  ((reached_valid initial h).placed hreach).tidy room

theorem frame_tidy_tabWindow : (tabWindow.refresh 8 0).Tidy 1 := by
  refine frame_tidy tabWindow_initial .start (.single (by decide)) ?_
  have hcontent : ((tabWindow.refresh tabWindow.count 0).views 1).content =
      .group .vertical [2, 5] := by decide
  refine ⟨by decide, by decide, ?_⟩
  simp only [hcontent, View.CentredW]
  decide

end Screen

end Fimbulwinter.Gui
