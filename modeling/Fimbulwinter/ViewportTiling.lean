import Fimbulwinter.ViewerDisplays

/-! # Viewports of split trees

The viewports that `build_viewports` makes of the frames below the root frame. -/
namespace Fimbulwinter.Viewer

/-! ## Tilings -/

/-- A pixel is in an area. -/
def Area.Contains (a : Area) (x y : ℤ) : Prop :=
  (a.x ≤ x ∧ x < a.x + a.width) ∧ a.y ≤ y ∧ y < a.y + a.height

/-- An area, possibly without pixels, is inside of another. -/
structure Area.Within (a area : Area) : Prop where
  columns : area.x ≤ a.x ∧ 0 ≤ a.width ∧ a.x + a.width ≤ area.x + area.width
  rows : area.y ≤ a.y ∧ 0 ≤ a.height ∧ a.y + a.height ≤ area.y + area.height

def Area.Disjoint (a b : Area) : Prop := ∀ x y, ¬ (a.Contains x y ∧ b.Contains x y)

/-- Areas cover an area without overlaps. -/
structure Tiles (area : Area) (areas : List Area) : Prop where
  within : ∀ a ∈ areas, a.Within area
  disjoint : areas.Pairwise Area.Disjoint
  covers : ∀ x y, area.Contains x y → ∃ a ∈ areas, a.Contains x y

section Tilings

variable {area a b c : Area} {as bs : List Area}

theorem Area.Within.trans (hab : a.Within b) (hbc : b.Within c) : a.Within c := by
  have hcolumns := hab.columns
  have hrows := hab.rows
  have hcolumns' := hbc.columns
  have hrows' := hbc.rows
  constructor <;> omega

theorem Area.Within.contains {x y : ℤ} (h : a.Within area) (hcontains : a.Contains x y) :
    area.Contains x y := by
  have hcolumns := h.columns
  have hrows := h.rows
  rw [Area.Contains] at hcontains ⊢
  omega

/-- An area without sizes below zero tiles itself. -/
theorem tiles_self (hwidth : 0 ≤ area.width) (hheight : 0 ≤ area.height) : Tiles area [area] where
  within a ha := by
    rw [List.mem_singleton.mp ha]
    constructor <;> omega
  disjoint := List.pairwise_singleton _ _
  covers x y h := ⟨area, List.mem_singleton_self area, h⟩

/-- Tilings of two areas that tile an area are one of that area. -/
theorem Tiles.append (h : Tiles area [a, b]) (ha : Tiles a as) (hb : Tiles b bs) :
    Tiles area (as ++ bs) where
  within c hc := by
    obtain hc | hc := List.mem_append.mp hc
    · exact (ha.within c hc).trans (h.within a (List.mem_cons_self ..))
    · exact (hb.within c hc).trans (h.within b (List.mem_cons_of_mem _ (List.mem_singleton_self b)))
  disjoint := by
    have hab : a.Disjoint b := List.rel_of_pairwise_cons h.disjoint (List.mem_singleton_self b)
    refine List.pairwise_append.mpr ⟨ha.disjoint, hb.disjoint, fun c hc d hd x y hboth => ?_⟩
    exact hab x y ⟨(ha.within c hc).contains hboth.1, (hb.within d hd).contains hboth.2⟩
  covers x y hcontains := by
    obtain ⟨c, hc, hcontains⟩ := h.covers x y hcontains
    rw [List.mem_cons, List.mem_singleton] at hc
    obtain rfl | rfl := hc
    · obtain ⟨d, hd, hcontains⟩ := ha.covers x y hcontains
      exact ⟨d, List.mem_append_left _ hd, hcontains⟩
    · obtain ⟨d, hd, hcontains⟩ := hb.covers x y hcontains
      exact ⟨d, List.mem_append_right _ hd, hcontains⟩

end Tilings

/-! ## Halves

The second half of an area gets the extra row or column. -/

def Area.top (a : Area) : Area := ⟨a.x, a.y, a.width, a.height / 2⟩

def Area.bottom (a : Area) : Area := ⟨a.x, a.y + a.height / 2, a.width, (a.height + 1) / 2⟩

def Area.left (a : Area) : Area := ⟨a.x, a.y, a.width / 2, a.height⟩

def Area.right (a : Area) : Area := ⟨a.x + a.width / 2, a.y, (a.width + 1) / 2, a.height⟩

/-- The sizes of an area are not below zero. -/
def Area.Proper (a : Area) : Prop := 0 ≤ a.width ∧ 0 ≤ a.height

section Halves

variable {area : Area}

theorem Area.Proper.halves (h : area.Proper) :
    (area.bottom.Proper ∧ area.top.Proper) ∧ area.left.Proper ∧ area.right.Proper := by
  obtain ⟨hwidth, hheight⟩ := h
  simp only [Area.Proper, Area.bottom, Area.top, Area.left, Area.right]
  omega

theorem Area.Proper.tiles_horizontal (h : area.Proper) : Tiles area [area.bottom, area.top] where
  within a ha := by
    obtain ⟨hwidth, hheight⟩ := h
    rw [List.mem_cons, List.mem_singleton] at ha
    obtain rfl | rfl := ha <;> constructor <;> simp only [Area.bottom, Area.top] <;> omega
  disjoint := by
    refine List.pairwise_pair.mpr fun x y hboth => ?_
    simp only [Area.Contains, Area.bottom, Area.top] at hboth
    omega
  covers x y hcontains := by
    obtain ⟨hwidth, hheight⟩ := h
    by_cases hy : y < area.y + area.height / 2
    · refine ⟨area.top, List.mem_cons_of_mem _ (List.mem_singleton_self _), ?_⟩
      simp only [Area.Contains, Area.top] at hcontains ⊢
      omega
    · refine ⟨area.bottom, List.mem_cons_self .., ?_⟩
      simp only [Area.Contains, Area.bottom] at hcontains ⊢
      omega

theorem Area.Proper.tiles_vertical (h : area.Proper) : Tiles area [area.left, area.right] where
  within a ha := by
    obtain ⟨hwidth, hheight⟩ := h
    rw [List.mem_cons, List.mem_singleton] at ha
    obtain rfl | rfl := ha <;> constructor <;> simp only [Area.left, Area.right] <;> omega
  disjoint := by
    refine List.pairwise_pair.mpr fun x y hboth => ?_
    simp only [Area.Contains, Area.left, Area.right] at hboth
    omega
  covers x y hcontains := by
    obtain ⟨hwidth, hheight⟩ := h
    by_cases hx : x < area.x + area.width / 2
    · refine ⟨area.left, List.mem_cons_self .., ?_⟩
      simp only [Area.Contains, Area.left] at hcontains ⊢
      omega
    · refine ⟨area.right, List.mem_cons_of_mem _ (List.mem_singleton_self _), ?_⟩
      simp only [Area.Contains, Area.right] at hcontains ⊢
      omega

end Halves

/-! ## Split trees -/

/-- A tree whose splits have both children, with dynamic and fixed frames as leaves. -/
inductive SplitTree
  | dynamicFrame (asset : Token) (camera : Option Token)
  | fixedFrame (asset : Token) (width height : ℤ) (camera : Option Token)
  | horizontalSplit (asset : Token) (bottom top : SplitTree)
  | verticalSplit (asset : Token) (left right : SplitTree)

namespace SplitTree

def asset : SplitTree → Token
  | dynamicFrame asset _ | fixedFrame asset _ _ _ | horizontalSplit asset _ _ |
    verticalSplit asset _ _ => asset

/-- The node of a tree's root. -/
def node : SplitTree → Node
  | dynamicFrame _ camera => .dynamicFrame camera
  | fixedFrame _ width height camera => .fixedFrame width height camera
  | horizontalSplit _ bottom top => .horizontalSplit (some bottom.asset) (some top.asset)
  | verticalSplit _ left right => .verticalSplit (some left.asset) (some right.asset)

/-- The nodes of a tree are in the collection. -/
def Holds (nodes : DenseTable Token Node) (tree : SplitTree) : Prop :=
  nodes.find tree.asset = some tree.node ∧
    match tree with
    | dynamicFrame _ _ | fixedFrame _ _ _ _ => True
    | horizontalSplit _ first second | verticalSplit _ first second =>
      first.Holds nodes ∧ second.Holds nodes

def depth : SplitTree → ℕ
  | dynamicFrame _ _ | fixedFrame _ _ _ _ => 1
  | horizontalSplit _ first second | verticalSplit _ first second =>
    max first.depth second.depth + 1

def assets : SplitTree → List Token
  | dynamicFrame asset _ | fixedFrame asset _ _ _ => [asset]
  | horizontalSplit asset first second | verticalSplit asset first second =>
    asset :: (first.assets ++ second.assets)

def frames : SplitTree → List Token
  | dynamicFrame asset _ | fixedFrame asset _ _ _ => [asset]
  | horizontalSplit _ first second | verticalSplit _ first second => first.frames ++ second.frames

/-- The viewports of the frames: a split gives each of its children a half. -/
def layout (area : Area) : SplitTree → List (Token × Viewport)
  | dynamicFrame asset camera | fixedFrame asset _ _ camera => [(asset, ⟨area, camera⟩)]
  | horizontalSplit _ bottom top => bottom.layout area.bottom ++ top.layout area.top
  | verticalSplit _ left right => left.layout area.left ++ right.layout area.right

variable {nodes : DenseTable Token Node} {emptyBucket : Bool} {tree : SplitTree} {area : Area}

theorem frames_sublist (tree : SplitTree) : tree.frames.Sublist tree.assets := by
  induction tree with
  | dynamicFrame asset camera => exact List.Sublist.refl _
  | fixedFrame asset width height camera => exact List.Sublist.refl _
  | horizontalSplit asset bottom top hbottom htop => exact (hbottom.append htop).cons asset
  | verticalSplit asset left right hleft hright => exact (hleft.append hright).cons asset

theorem map_fst_layout (tree : SplitTree) (area : Area) :
    (tree.layout area).map Prod.fst = tree.frames := by
  induction tree generalizing area with
  | dynamicFrame asset camera => rfl
  | fixedFrame asset width height camera => rfl
  | horizontalSplit asset bottom top hbottom htop =>
    rw [layout, List.map_append, hbottom, htop, frames]
  | verticalSplit asset left right hleft hright =>
    rw [layout, List.map_append, hleft, hright, frames]

/-- The areas of a layout, whatever the splits are, tile the area that is laid out. -/
theorem tiles_layout (tree : SplitTree) (harea : area.Proper) :
    Tiles area ((tree.layout area).map fun v => v.2.area) := by
  induction tree generalizing area with
  | dynamicFrame asset camera => exact tiles_self harea.1 harea.2
  | fixedFrame asset width height camera => exact tiles_self harea.1 harea.2
  | horizontalSplit asset bottom top hbottom htop =>
    rw [layout, List.map_append]
    exact harea.tiles_horizontal.append (hbottom harea.halves.1.1) (htop harea.halves.1.2)
  | verticalSplit asset left right hleft hright =>
    rw [layout, List.map_append]
    exact harea.tiles_vertical.append (hleft harea.halves.2.1) (hright harea.halves.2.2)

end SplitTree

/-! ## Building viewports -/

section Building

variable {nodes : DenseTable Token Node} {emptyBucket : Bool} {tree : SplitTree} {area : Area}
  {depth : ℕ}

theorem children_horizontalSplit (harea : area.Proper) (bottom top : Option Token) :
    (Node.horizontalSplit bottom top).children area = [(bottom, area.bottom), (top, area.top)] := by
  have hhalf : area.height.tdiv 2 = area.height / 2 := Int.tdiv_eq_ediv_of_nonneg harea.2
  have hrest : area.height - area.height / 2 = (area.height + 1) / 2 := by omega
  rw [Node.children, hhalf, hrest]
  rfl

theorem children_verticalSplit (harea : area.Proper) (left right : Option Token) :
    (Node.verticalSplit left right).children area = [(left, area.left), (right, area.right)] := by
  have hhalf : area.width.tdiv 2 = area.width / 2 := Int.tdiv_eq_ediv_of_nonneg harea.1
  have hrest : area.width - area.width / 2 = (area.width + 1) / 2 := by omega
  rw [Node.children, hhalf, hrest]
  rfl

theorem joinAll_pair {α β ε : Type*} {f : α → Except ε (List β)} {a b : α} {as bs : List β}
    (ha : f a = .ok as) (hb : f b = .ok bs) : joinAll f [a, b] = .ok (as ++ bs) := by
  rw [joinAll, ha]
  dsimp only
  rw [joinAll, hb, joinAll]
  dsimp only
  rw [List.append_nil]

/-- The viewports that are built of a tree are its layout. -/
theorem buildFrom_layout (htree : tree.Holds nodes) (harea : area.Proper)
    (hdepth : tree.depth ≤ depth) :
    buildFrom nodes emptyBucket depth (some tree.asset, area) = .ok (tree.layout area) := by
  induction tree generalizing area depth with
  | dynamicFrame asset camera =>
    obtain ⟨depth, rfl⟩ : ∃ depth', depth = depth' + 1 := Nat.exists_eq_add_of_le' hdepth
    rw [buildFrom, htree.1]
    rfl
  | fixedFrame asset width height camera =>
    obtain ⟨depth, rfl⟩ : ∃ depth', depth = depth' + 1 := Nat.exists_eq_add_of_le' hdepth
    rw [buildFrom, htree.1]
    rfl
  | horizontalSplit asset bottom top hbottom htop =>
    rw [SplitTree.depth] at hdepth
    obtain ⟨depth, rfl⟩ : ∃ depth', depth = depth' + 1 := ⟨depth - 1, by omega⟩
    obtain ⟨hfind, hholds⟩ := htree
    rw [buildFrom, hfind]
    dsimp only [SplitTree.node, Node.camera]
    rw [children_horizontalSplit harea]
    exact joinAll_pair (hbottom hholds.1 harea.halves.1.1 (by omega))
      (htop hholds.2 harea.halves.1.2 (by omega))
  | verticalSplit asset left right hleft hright =>
    rw [SplitTree.depth] at hdepth
    obtain ⟨depth, rfl⟩ : ∃ depth', depth = depth' + 1 := ⟨depth - 1, by omega⟩
    obtain ⟨hfind, hholds⟩ := htree
    rw [buildFrom, hfind]
    dsimp only [SplitTree.node, Node.camera]
    rw [children_verticalSplit harea]
    exact joinAll_pair (hleft hholds.1 harea.halves.2.1 (by omega))
      (hright hholds.2 harea.halves.2.2 (by omega))

/-- Below the root frame. -/
theorem buildFrom_root {rootFrame : Token} (hroot : nodes.find rootFrame = some (.root (some tree.asset)))
    (htree : tree.Holds nodes) (harea : area.Proper) (hdepth : tree.depth < depth) :
    buildFrom nodes emptyBucket depth (some rootFrame, area) = .ok (tree.layout area) := by
  obtain ⟨depth, rfl⟩ : ∃ depth', depth = depth' + 1 := ⟨depth - 1, by omega⟩
  rw [buildFrom, hroot]
  dsimp only [Node.camera, Node.children]
  rw [joinAll, buildFrom_layout htree harea (Nat.le_of_lt_succ hdepth), joinAll]
  dsimp only
  rw [List.append_nil]

/-- The viewports of a tree tile the window: there is one for each frame, and the second half of a
split gets the extra row or column. -/
theorem buildFrom_tiles {rootFrame : Token} {width height : ℤ} (hwidth : 0 ≤ width)
    (hheight : 0 ≤ height) (hroot : nodes.find rootFrame = some (.root (some tree.asset)))
    (htree : tree.Holds nodes) (hassets : tree.assets.Nodup) (emptyBucket : Bool) :
    ∃ viewports, (∃ bound, ∀ depth ≥ bound,
        buildFrom nodes emptyBucket depth (some rootFrame, ⟨0, 0, width, height⟩) = .ok viewports) ∧
      (viewports.map Prod.fst = tree.frames ∧ (viewports.map Prod.fst).Nodup) ∧
      Tiles ⟨0, 0, width, height⟩ (viewports.map fun v => v.2.area) ∧
      viewports = tree.layout ⟨0, 0, width, height⟩ := by
  have harea : Area.Proper ⟨0, 0, width, height⟩ := ⟨hwidth, hheight⟩
  have hframes := tree.map_fst_layout ⟨0, 0, width, height⟩
  refine ⟨tree.layout ⟨0, 0, width, height⟩, ⟨tree.depth + 1, fun depth hdepth => ?_⟩,
    ⟨hframes, ?_⟩, tree.tiles_layout harea, rfl⟩
  · exact buildFrom_root hroot htree harea hdepth
  · rw [hframes]
    exact hassets.sublist tree.frames_sublist

/-- A window of three columns, split between two frames. -/
theorem buildFrom_tiles_columns : ∃ viewports, (∃ bound, ∀ depth ≥ bound,
      buildFrom (DenseTable.mk [((1 : Token), Node.root (some 2)),
        (2, .verticalSplit (some 3) (some 4)), (3, .dynamicFrame none), (4, .fixedFrame 5 5 none)]
        (by decide)) true depth (some 1, ⟨0, 0, 3, 1⟩) = .ok viewports) ∧
    Tiles ⟨0, 0, 3, 1⟩ (viewports.map fun v => v.2.area) ∧
    viewports = [(3, ⟨⟨0, 0, 1, 1⟩, none⟩), (4, ⟨⟨1, 0, 2, 1⟩, none⟩)] := by
  have htree : (SplitTree.verticalSplit 2 (.dynamicFrame 3 none) (.fixedFrame 4 5 5 none)).Holds
      (DenseTable.mk [((1 : Token), Node.root (some 2)), (2, .verticalSplit (some 3) (some 4)),
        (3, .dynamicFrame none), (4, .fixedFrame 5 5 none)] (by decide)) :=
    ⟨rfl, ⟨rfl, trivial⟩, rfl, trivial⟩
  obtain ⟨viewports, hbuild, -, htiles, rfl⟩ := @buildFrom_tiles _ _ 1 3 1 (by decide) (by decide) rfl
    htree (by decide) true
  exact ⟨_, hbuild, htiles, rfl⟩

end Building

end Fimbulwinter.Viewer
