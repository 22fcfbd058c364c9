import Fimbulwinter.Views
import Mathlib.Logic.Relation

/-! # Refreshing the views

What `ViewRefresh::refresh` leaves behind, from what one view and one group do. A screen is
consistent when pending changes can be found from above, every group that is not about to
resize its children has placed them, and the renderer shows what the views say. -/
namespace Fimbulwinter.Gui

namespace Change

theorem isSet_set (change : Change) (flags m : BitVec 32) :
    (change.set flags).isSet m = (change.isSet m || (⟨flags⟩ : Change).isSet m) := by
  simp only [isSet, set, BitVec.and_or_distrib_right]
  rw [Bool.eq_iff_iff]
  simp [bne_iff_ne, BitVec.or_eq_zero_iff, Classical.or_iff_not_imp_left]

theorem any_eq_isSet (change : Change) : change.any = change.isSet (BitVec.allOnes 32) := by
  rw [any, isSet, BitVec.and_allOnes]

theorem any_set (change : Change) (flags : BitVec 32) :
    (change.set flags).any = (change.any || flags != 0) := by
  rw [any_eq_isSet, isSet_set, ← any_eq_isSet, ← any_eq_isSet]
  rfl

theorem any_of_isSet {change : Change} {m : BitVec 32} (h : change.isSet m = true) :
    change.any = true := by
  simp only [isSet, any, bne_iff_ne] at h ⊢
  intro hzero
  exact h (by simp [hzero])

/-- The children of a group with such a change are placed anew. -/
def resizes (change : Change) : Bool := change.affectsSize || change.affectsMoved

theorem any_of_resizes {change : Change} (h : change.resizes = true) : change.any = true := by
  rcases Bool.or_eq_true_iff.mp h with h | h
  · exact any_of_isSet h
  · exact any_of_isSet h

/-- No pending change is lost. -/
def Grows (change change' : Change) : Prop := ∀ m, change.isSet m = true → change'.isSet m = true

theorem Grows.refl (change : Change) : change.Grows change := fun _ h => h

theorem Grows.trans {a b c : Change} (h : a.Grows b) (h' : b.Grows c) : a.Grows c :=
  fun m hm => h' m (h m hm)

theorem Grows.any {a b : Change} (h : a.Grows b) (ha : a.any = true) : b.any = true := by
  rw [any_eq_isSet] at ha ⊢
  exact h _ ha

theorem Grows.resizes {a b : Change} (h : a.Grows b) (ha : a.resizes = true) :
    b.resizes = true := by
  rcases Bool.or_eq_true_iff.mp ha with ha | ha
  · exact Bool.or_eq_true_iff.mpr (.inl (h _ ha))
  · exact Bool.or_eq_true_iff.mpr (.inr (h _ ha))

theorem grows_set (change : Change) (flags : BitVec 32) : change.Grows (change.set flags) := by
  intro m h
  rw [isSet_set, h, Bool.true_or]

theorem resizes_set {change : Change} {flags : BitVec 32}
    (h : (⟨flags⟩ : Change).resizes = true) : (change.set flags).resizes = true := by
  simp only [resizes, affectsSize, affectsMoved, Bool.or_eq_true, isSet_set] at h ⊢
  exact h.imp .inr .inr

end Change

/-! ## One view -/

namespace View

/-- The height that a view takes in what its parent gives -/
def heightIn (view : View) (size : Dimen) : Dimen :=
  if view.size.height.type = .parent then size - view.margin.height else view.size.height.value

def widthIn (view : View) (size : Dimen) : Dimen :=
  if view.size.width.type = .parent then size - view.margin.width else view.size.width.value

/-- The place that a view takes in what its parent gives -/
def topIn (view : View) (mask : Gravity) (offset size : Dimen) : Dimen :=
  if view.size.height.type = .parent then offset + view.margin.top
  else if (view.gravity.mask mask).has Gravity.verticalBottom then
    offset + (size - view.size.height.value - view.margin.bottom)
  else if (view.gravity.mask mask).has Gravity.verticalCentre then
    offset + (size - view.size.height.value) / 2 + (view.margin.top - view.margin.bottom)
  else offset + view.margin.top

def leftIn (view : View) (mask : Gravity) (offset size : Dimen) : Dimen :=
  if view.size.width.type = .parent then offset + view.margin.left
  else if (view.gravity.mask mask).has Gravity.horizontalRight then
    offset + (size - view.size.width.value - view.margin.right)
  else if (view.gravity.mask mask).has Gravity.horizontalCentre then
    offset + (size - view.size.width.value) / 2 + (view.margin.left - view.margin.right)
  else offset + view.margin.left

theorem resizeH_self (view : View) : view.resizeH view.size.height.value = view := by
  simp [resizeH]

theorem resizeW_self (view : View) : view.resizeW view.size.width.value = view := by
  simp [resizeW]

theorem refreshH_eq (view : View) (mask : Gravity) (offset size : Dimen) :
    view.refreshH mask offset size =
      (view.resizeH (view.heightIn size)).moveH (view.topIn mask offset size) := by
  unfold refreshH heightIn topIn
  cases h : view.size.height.type with
  | parent => simp
  | fixed | wrap =>
    simp only [reduceCtorEq, if_false, resizeH_self]
    split_ifs <;> rfl

theorem refreshW_eq (view : View) (mask : Gravity) (offset size : Dimen) :
    view.refreshW mask offset size =
      (view.resizeW (view.widthIn size)).moveW (view.leftIn mask offset size) := by
  unfold refreshW widthIn leftIn
  cases h : view.size.width.type with
  | parent => simp
  | fixed | wrap =>
    simp only [reduceCtorEq, if_false, resizeW_self]
    split_ifs <;> rfl

/-- Everything of a view but its place, its pending changes and its status -/
structure Like (view view' : View) : Prop where
  content : view'.content = view.content
  gravity : view'.gravity = view.gravity
  margin : view'.margin = view.margin
  parent : view'.parent = view.parent
  selectable : view'.selectable = view.selectable
  height : view'.size.height.type = view.size.height.type
  width : view'.size.width.type = view.size.width.type

theorem Like.refl (view : View) : view.Like view := ⟨rfl, rfl, rfl, rfl, rfl, rfl, rfl⟩

theorem Like.trans {a b c : View} (h : a.Like b) (h' : b.Like c) : a.Like c :=
  ⟨h'.content.trans h.content, h'.gravity.trans h.gravity, h'.margin.trans h.margin,
    h'.parent.trans h.parent, h'.selectable.trans h.selectable, h'.height.trans h.height,
    h'.width.trans h.width⟩

theorem Like.children {a b : View} (h : a.Like b) : b.children = a.children := by
  unfold View.children
  rw [h.content]

theorem refresh_like (view : View) (mask : Gravity) (offset : Offset) (size : Size) :
    view.Like (view.refresh mask offset size) := by
  rw [refresh, refreshW_eq, refreshH_eq]
  exact ⟨rfl, rfl, rfl, rfl, rfl, rfl, rfl⟩

theorem refresh_status (view : View) (mask : Gravity) (offset : Offset) (size : Size) :
    (view.refresh mask offset size).status = view.status := by
  rw [refresh, refreshW_eq, refreshH_eq]
  rfl

theorem refresh_size (view : View) (mask : Gravity) (offset : Offset) (size : Size) :
    (view.refresh mask offset size).size =
      ⟨⟨view.size.height.type, view.heightIn size.height.value⟩,
        ⟨view.size.width.type, view.widthIn size.width.value⟩⟩ := by
  rw [refresh, refreshW_eq, refreshH_eq]
  rfl

theorem refresh_offset (view : View) (mask : Gravity) (offset : Offset) (size : Size) :
    (view.refresh mask offset size).offset =
      ⟨view.topIn mask offset.height size.height.value,
        view.leftIn mask offset.width size.width.value⟩ := by
  rw [refresh, refreshW_eq, refreshH_eq]
  rfl

/-- A view keeps its place, or its children are placed anew. -/
structure Moves (view view' : View) : Prop where
  grows : view.change.Grows view'.change
  place : view'.offset = view.offset ∧ view'.size = view.size ∨ view'.change.resizes = true

theorem Moves.refl (view : View) : view.Moves view := ⟨.refl _, .inl ⟨rfl, rfl⟩⟩

theorem Moves.trans {a b c : View} (h : a.Moves b) (h' : b.Moves c) : a.Moves c where
  grows := h.grows.trans h'.grows
  place := by
    rcases h'.place with ⟨hoffset, hsize⟩ | hresizes
    · rcases h.place with ⟨hoffset', hsize'⟩ | hresizes
      · exact .inl ⟨hoffset.trans hoffset', hsize.trans hsize'⟩
      · exact .inr (h'.grows.resizes hresizes)
    · exact .inr hresizes

theorem resizeH_moves (view : View) (value : Dimen) : view.Moves (view.resizeH value) := by
  by_cases h : view.size.height.value = value
  · subst h
    rw [resizeH_self]
    exact .refl view
  · simp only [resizeH, if_neg h]
    exact ⟨Change.grows_set _ _, .inr (Change.resizes_set (by decide))⟩

theorem resizeW_moves (view : View) (value : Dimen) : view.Moves (view.resizeW value) := by
  by_cases h : view.size.width.value = value
  · subst h
    rw [resizeW_self]
    exact .refl view
  · simp only [resizeW, if_neg h]
    exact ⟨Change.grows_set _ _, .inr (Change.resizes_set (by decide))⟩

theorem moveH_moves (view : View) (value : Dimen) : view.Moves (view.moveH value) := by
  by_cases h : view.offset.height = value
  · subst h
    simp only [moveH, if_true]
    exact .refl view
  · simp only [moveH, if_neg h]
    exact ⟨Change.grows_set _ _, .inr (Change.resizes_set (by decide))⟩

theorem moveW_moves (view : View) (value : Dimen) : view.Moves (view.moveW value) := by
  by_cases h : view.offset.width = value
  · subst h
    simp only [moveW, if_true]
    exact .refl view
  · simp only [moveW, if_neg h]
    exact ⟨Change.grows_set _ _, .inr (Change.resizes_set (by decide))⟩

theorem refresh_moves (view : View) (mask : Gravity) (offset : Offset) (size : Size) :
    view.Moves (view.refresh mask offset size) := by
  rw [refresh, refreshW_eq, refreshH_eq]
  exact (((resizeH_moves _ _).trans (moveH_moves _ _)).trans (resizeW_moves _ _)).trans
    (moveW_moves _ _)

/-- A view is where its parent puts it. -/
def PlacedIn (view : View) (mask : Gravity) (offset : Offset) (size : Size) : Prop :=
  (view.refresh mask offset size).offset = view.offset ∧
    (view.refresh mask offset size).size = view.size

instance (view : View) (mask : Gravity) (offset : Offset) (size : Size) :
    Decidable (view.PlacedIn mask offset size) := inferInstanceAs (Decidable (_ ∧ _))

/-- A view stays where it is. -/
structure Rests (view view' : View) : Prop where
  gravity : view'.gravity = view.gravity
  margin : view'.margin = view.margin
  offset : view'.offset = view.offset
  size : view'.size = view.size

theorem Rests.refl (view : View) : view.Rests view := ⟨rfl, rfl, rfl, rfl⟩

theorem Like.rests {a b : View} (h : a.Like b) (place : b.offset = a.offset ∧ b.size = a.size) :
    a.Rests b := ⟨h.gravity, h.margin, place.1, place.2⟩

/-- Where a view belongs does not depend on anything else. -/
theorem PlacedIn.congr {a b : View} {mask : Gravity} {offset : Offset} {size : Size}
    (h : a.PlacedIn mask offset size) (rests : a.Rests b) : b.PlacedIn mask offset size := by
  unfold PlacedIn at h ⊢
  rw [refresh_offset, refresh_size] at h ⊢
  simp only [topIn, leftIn, heightIn, widthIn, rests.gravity, rests.margin, rests.offset,
    rests.size] at h ⊢
  exact h

theorem refresh_placedIn (view : View) (mask : Gravity) (offset : Offset) (size : Size) :
    (view.refresh mask offset size).PlacedIn mask offset size := by
  have like := refresh_like view mask offset size
  have hsize := refresh_size view mask offset size
  have hoffset := refresh_offset view mask offset size
  generalize view.refresh mask offset size = view' at like hsize hoffset
  unfold PlacedIn
  rw [refresh_offset, refresh_size, hoffset, hsize]
  simp only [topIn, leftIn, heightIn, widthIn, like.gravity, like.margin, hsize]
  constructor
  · split_ifs <;> simp_all
  · split_ifs <;> simp_all

end View

/-! ## The tree of views -/

/-- A view is strictly under another one, by way of parents. -/
def Above (parents : ViewId → Option ViewId) : ViewId → ViewId → Prop :=
  Relation.TransGen fun above below => parents below = some above

namespace Screen

variable {s s' t : Screen} {id : ViewId}

def parents (s : Screen) (id : ViewId) : Option ViewId := (s.views id).parent

/-- The views that can be reached by way of children -/
def Reach (s : Screen) : ViewId → ViewId → Prop :=
  Relation.ReflTransGen fun group child => child ∈ (s.views group).children

/-- Views are created after their parents, and only a parent has a view among its children. -/
structure Tree (s : Screen) : Prop where
  parent_lt : ∀ id group, s.parents id = some group → group < id
  child : ∀ group, ∀ child ∈ (s.views group).children,
    s.parents child = some group ∧ child < s.count
  nodup : ∀ group, (s.views group).children.Nodup

/-- Children with pending changes are found from their group. -/
def Covers (s : Screen) (group : ViewId) : Prop :=
  ∀ child ∈ (s.views group).children, (s.views child).change.any = true →
    (s.views group).change.any = true

/-- Every child is placed in what those before it leave. -/
def PlacedFrom (views : ViewId → View) (layout : Layout) : Offset → Size → List ViewId → Prop
  | _, _, [] => True
  | offset, size, child :: children =>
    (views child).PlacedIn layout.mask offset size ∧
      PlacedFrom views layout (layout.advance (views child) offset size).1
        (layout.advance (views child) offset size).2 children

def Placed (s : Screen) (group : ViewId) : Prop :=
  match (s.views group).content with
  | .group layout children =>
    PlacedFrom s.views layout (s.views group).offset (s.views group).size children
  | _ => True

/-- The children of a group are placed, or they are going to be. -/
def Arranged (s : Screen) (group : ViewId) : Prop :=
  (s.views group).change.resizes = true ∨ s.Placed group

end Screen

/-- What the renderer holds: for an entity what it draws and whether it can be selected. -/
abbrev Picture := ViewId → Option (Drawn × Bool)

/-- The renderer takes a message; none when the message is about an entity that it should not
have, or has not. -/
def Picture.handle (picture : Picture) : Post → Option Picture
  | .add entity data =>
    match picture entity with
    | none => some (Function.update picture entity (some (data, false)))
    | some _ => none
  | .update entity data =>
    match picture entity with
    | none => none
    | some (_, selectable) => some (Function.update picture entity (some (data, selectable)))
  | .makeSelectable entity =>
    match picture entity with
    | none => none
    | some (data, _) => some (Function.update picture entity (some (data, true)))
  | .remove entity =>
    match picture entity with
    | none => none
    | some _ => some (Function.update picture entity none)

/-- The renderer takes all messages in order. -/
def Picture.replay (posts : List Post) : Option Picture :=
  posts.foldlM Picture.handle fun _ => none

theorem Picture.replay_append (posts posts' : List Post) :
    Picture.replay (posts ++ posts') =
      (Picture.replay posts).bind fun picture => posts'.foldlM Picture.handle picture := by
  simp [Picture.replay, List.foldlM_append]

/-- What the renderer holds of a view: it is rendered or not, and without pending changes it is
rendered as it is, unless it is a group. -/
structure View.Shown (view : View) (entry : Option (Drawn × Bool)) : Prop where
  rendered : view.status.rendered = entry.isSome
  drawn : ∀ data selectable, entry = some (data, selectable) → selectable = view.selectable ∧
    view.drawn.isSome ∧ (view.change.any = false → view.drawn = some data)
  missing : entry = none → view.drawn.isSome → view.change.any = true

/-- The renderer understands what it was told, and holds it. -/
def Screen.Pictured (s : Screen) : Prop :=
  ∃ picture, Picture.replay s.posts = some picture ∧ ∀ id, (s.views id).Shown (picture id)

structure Screen.Consistent (s : Screen) : Prop where
  tree : s.Tree
  covers : ∀ group, s.Covers group
  arranged : ∀ group, s.Arranged group
  pictured : s.Pictured

/-- Views are like they were. -/
structure Screen.Like (s s' : Screen) : Prop where
  views : ∀ id, (s.views id).Like (s'.views id)
  count : s'.count = s.count

namespace Screen

variable {s s' t : Screen} {id : ViewId}

@[simp] theorem modify_count (s : Screen) (id : ViewId) (f : View → View) :
    (s.modify id f).count = s.count := rfl

@[simp] theorem modify_posts (s : Screen) (id : ViewId) (f : View → View) :
    (s.modify id f).posts = s.posts := rfl

@[simp] theorem modify_same (s : Screen) (id : ViewId) (f : View → View) :
    (s.modify id f).views id = f (s.views id) := Function.update_self _ _ _

theorem modify_other (s : Screen) {id other : ViewId} (f : View → View) (h : other ≠ id) :
    (s.modify id f).views other = s.views other := Function.update_of_ne h _ _

@[simp] theorem post_views (s : Screen) (posts : List Post) : (s.post posts).views = s.views := rfl

@[simp] theorem post_count (s : Screen) (posts : List Post) : (s.post posts).count = s.count := rfl

/-- What holds of every view, and of the view that changed, holds of every view after. -/
theorem modify_forall {p : ViewId → View → Prop} {f : View → View}
    (h : ∀ other, other ≠ id → p other (s.views other)) (hid : p id (f (s.views id)))
    (other : ViewId) : p other ((s.modify id f).views other) := by
  by_cases heq : other = id
  · subst heq
    rwa [modify_same]
  · rw [modify_other _ _ heq]
    exact h other heq

theorem Like.refl (s : Screen) : s.Like s := ⟨fun _ => .refl _, rfl⟩

theorem Like.trans (h : s.Like s') (h' : s'.Like t) : s.Like t :=
  ⟨fun id => (h.views id).trans (h'.views id), h'.count.trans h.count⟩

theorem Like.parents (h : s.Like s') : s'.parents = s.parents :=
  funext fun id => (h.views id).parent

theorem Like.reach (h : s.Like s') : s'.Reach = s.Reach := by
  have : (fun group child => child ∈ (s'.views group).children) =
      fun group child => child ∈ (s.views group).children := by
    funext group child
    rw [(h.views group).children]
  rw [Reach, this, Reach]

theorem Like.modify {f : View → View} (h : (s.views id).Like (f (s.views id))) :
    s.Like (s.modify id f) :=
  ⟨modify_forall (p := fun other view => (s.views other).Like view) (fun _ _ => .refl _) h, rfl⟩

theorem Tree.of_like (h : s.Tree) (like : s.Like s') : s'.Tree where
  parent_lt := by
    rw [like.parents]
    exact h.parent_lt
  child := by
    intro group child hchild
    rw [(like.views group).children] at hchild
    rw [like.parents, like.count]
    exact h.child group child hchild
  nodup := by
    intro group
    rw [(like.views group).children]
    exact h.nodup group

theorem Tree.child_lt (h : s.Tree) {group child : ViewId}
    (hchild : child ∈ (s.views group).children) : group < child :=
  h.parent_lt child group (h.child group child hchild).1

theorem Tree.above_lt (h : s.Tree) {above below : ViewId} (habove : Above s.parents above below) :
    above < below := by
  induction habove with
  | single hparent => exact h.parent_lt _ _ hparent
  | tail _ hparent ih => exact Nat.lt_trans ih (h.parent_lt _ _ hparent)

/-- What is above a child is its group or above its group. -/
theorem above_child {above group child : ViewId} (hparent : s.parents child = some group)
    (habove : Above s.parents above child) : above = group ∨ Above s.parents above group := by
  cases habove with
  | single h =>
    rw [hparent] at h
    exact .inl (Option.some.inj h).symm
  | tail h h' =>
    rw [hparent] at h'
    rw [Option.some.inj h']
    exact .inr h

/-- Children of one group are not above each other, and not above the group. -/
theorem Tree.not_above_sibling (h : s.Tree) {group child sibling : ViewId}
    (hchild : s.parents child = some group) (hsibling : s.parents sibling = some group) :
    ¬ Above s.parents child sibling ∧ ¬ Above s.parents child group := by
  have hlt := h.parent_lt child group hchild
  have hgroup : ¬ Above s.parents child group := fun habove =>
    Nat.lt_asymm hlt (h.above_lt habove)
  refine ⟨fun habove => ?_, hgroup⟩
  rcases above_child hsibling habove with heq | habove
  · exact Nat.lt_irrefl group (heq ▸ hlt)
  · exact hgroup habove

/-- Children that stay where they are stay placed. -/
theorem PlacedFrom.congr {views views' : ViewId → View} {layout : Layout}
    {children : List ViewId} {offset : Offset} {size : Size}
    (h : PlacedFrom views layout offset size children)
    (rests : ∀ child ∈ children, (views child).Rests (views' child)) :
    PlacedFrom views' layout offset size children := by
  induction children generalizing offset size with
  | nil => trivial
  | cons child children ih =>
    obtain ⟨hplaced, hrest⟩ := h
    have hchild := rests child (List.mem_cons_self ..)
    have hadvance : layout.advance (views' child) = layout.advance (views child) := by
      funext offset size
      unfold Layout.advance
      rw [hchild.margin, hchild.size]
    refine ⟨hplaced.congr hchild, ?_⟩
    rw [hadvance]
    exact ih hrest fun sibling hsibling => rests sibling (List.mem_cons_of_mem _ hsibling)

theorem placed_of_children_nil {group : ViewId} (h : (s.views group).children = []) :
    s.Placed group := by
  unfold Placed
  cases hcontent : (s.views group).content with
  | group layout children =>
    simp only [View.children, hcontent] at h
    subst h
    trivial
  | color _ | text _ _ | texture _ => trivial

/-- A group whose children stay where they are stays placed when it does so itself. -/
theorem Placed.congr {group : ViewId} (h : s.Placed group)
    (content : (s'.views group).content = (s.views group).content)
    (place : (s'.views group).offset = (s.views group).offset ∧
      (s'.views group).size = (s.views group).size)
    (rests : ∀ child ∈ (s.views group).children, (s.views child).Rests (s'.views child)) :
    s'.Placed group := by
  unfold Placed at h ⊢
  rw [content, place.1, place.2]
  cases hcontent : (s.views group).content with
  | group layout children =>
    simp only [hcontent] at h ⊢
    exact h.congr fun child hchild =>
      rests child (by simpa [View.children, hcontent] using hchild)
  | color _ | text _ _ | texture _ => trivial

end Screen

/-- A change of a view that the renderer will be told of -/
structure View.Noted (view view' : View) : Prop where
  rendered : view'.status.rendered = view.status.rendered
  selectable : view'.selectable = view.selectable
  isSome : view'.drawn.isSome = view.drawn.isSome
  drawn : view'.change.any = false → view.change.any = false ∧ view'.drawn = view.drawn

theorem View.Noted.refl (view : View) : view.Noted view := ⟨rfl, rfl, rfl, fun h => ⟨h, rfl⟩⟩

theorem View.Noted.trans {a b c : View} (h : a.Noted b) (h' : b.Noted c) : a.Noted c where
  rendered := h'.rendered.trans h.rendered
  selectable := h'.selectable.trans h.selectable
  isSome := h'.isSome.trans h.isSome
  drawn := by
    intro hclean
    obtain ⟨hb, hdrawn⟩ := h'.drawn hclean
    exact ⟨(h.drawn hb).1, hdrawn.trans (h.drawn hb).2⟩

theorem View.Shown.of_noted {view view' : View} {entry : Option (Drawn × Bool)}
    (h : view.Shown entry) (noted : view.Noted view') : view'.Shown entry where
  rendered := noted.rendered.trans h.rendered
  drawn := by
    intro data selectable hentry
    obtain ⟨hselectable, hisSome, hdrawn⟩ := h.drawn data selectable hentry
    refine ⟨hselectable.trans noted.selectable.symm, noted.isSome ▸ hisSome, fun hclean => ?_⟩
    rw [(noted.drawn hclean).2]
    exact hdrawn (noted.drawn hclean).1
  missing := by
    intro hentry hisSome
    rw [noted.isSome] at hisSome
    have hany := h.missing hentry hisSome
    cases hclean : view'.change.any with
    | true => rfl
    | false => rw [(noted.drawn hclean).1] at hany; exact hany

theorem Screen.Pictured.of_noted {s s' : Screen} (h : s.Pictured) (posts : s'.posts = s.posts)
    (noted : ∀ id, (s.views id).Noted (s'.views id)) : s'.Pictured := by
  obtain ⟨picture, hreplay, hshown⟩ := h
  exact ⟨picture, by rw [posts, hreplay], fun id => (hshown id).of_noted (noted id)⟩

/-- What is drawn of a view depends on its place and what it keeps. -/
theorem View.Like.drawn {a b : View} (h : a.Like b) (hoffset : b.offset = a.offset)
    (hsize : b.size = a.size) (hstate : b.status.state = a.status.state) : b.drawn = a.drawn := by
  unfold View.drawn
  rw [h.content, hstate, hoffset, hsize]

theorem View.Like.drawn_isSome {a b : View} (h : a.Like b) :
    b.drawn.isSome = a.drawn.isSome := by
  unfold View.drawn
  rw [h.content]
  cases a.content <;> rfl

/-- Placing a view is a change that the renderer will be told of. -/
theorem View.refresh_noted (view : View) (mask : Gravity) (offset : Offset) (size : Size) :
    view.Noted (view.refresh mask offset size) where
  rendered := by rw [refresh_status]
  selectable := (refresh_like view mask offset size).selectable
  isSome := (refresh_like view mask offset size).drawn_isSome
  drawn := by
    intro hclean
    have moves := refresh_moves view mask offset size
    rcases moves.place with ⟨hoffset, hsize⟩ | hresizes
    · refine ⟨?_, (refresh_like view mask offset size).drawn hoffset hsize
        (by rw [refresh_status])⟩
      cases hany : view.change.any with
      | false => rfl
      | true => rw [moves.grows.any hany] at hclean; exact hclean.symm ▸ rfl
    · rw [Change.any_of_resizes hresizes] at hclean
      cases hclean

/-! ## Refreshing -/

namespace Screen

variable {s s' t : Screen} {id : ViewId}

/-- What refreshing views leaves behind: only these views and what is under them may change, no
view gets new changes, and what is rendered for the first time is reached from them. -/
structure Passed (s s' : Screen) (ids : List ViewId) : Prop where
  like : s.Like s'
  frame : ∀ other, (∀ id ∈ ids, other ≠ id ∧ ¬ Above s.parents id other) →
    s'.views other = s.views other
  quiet : ∀ other, (s.views other).change.any = false → (s'.views other).change.any = false
  clean : ∀ id ∈ ids, (s'.views id).change.any = false
  rendered : ∀ other, (s'.views other).status.rendered = true →
    (s.views other).status.rendered = true ∨ ∃ id ∈ ids, s.Reach id other

theorem Passed.nil (s : Screen) : s.Passed s [] where
  like := .refl s
  frame _ _ := rfl
  quiet _ h := h
  clean := by simp
  rendered _ h := .inl h

theorem Passed.append {ids ids' : List ViewId} (h : s.Passed s' ids) (h' : s'.Passed t ids') :
    s.Passed t (ids ++ ids') where
  like := h.like.trans h'.like
  frame := by
    intro other hother
    have hs := h.frame other fun id hid => hother id (List.mem_append_left _ hid)
    have ht := h'.frame other fun id hid => by
      rw [h.like.parents]
      exact hother id (List.mem_append_right _ hid)
    rw [ht, hs]
  quiet other hother := h'.quiet other (h.quiet other hother)
  clean := by
    intro id hid
    rcases List.mem_append.mp hid with hid | hid
    · exact h'.quiet id (h.clean id hid)
    · exact h'.clean id hid
  rendered := by
    intro other hother
    rcases h'.rendered other hother with hs | ⟨id, hid, hreach⟩
    · rcases h.rendered other hs with hs | ⟨id, hid, hreach⟩
      · exact .inl hs
      · exact .inr ⟨id, List.mem_append_left _ hid, hreach⟩
    · rw [h.like.reach] at hreach
      exact .inr ⟨id, List.mem_append_right _ hid, hreach⟩

/-- Pending changes of a view that has none under it are cleared. -/
theorem Consistent.clear (h : s.Consistent)
    (quiet : ∀ child ∈ (s.views id).children, (s.views child).change.any = false)
    (placed : s.Placed id)
    (pictured : (s.modify id fun view => { view with change := view.change.clear }).Pictured) :
    (s.modify id fun view => { view with change := view.change.clear }).Consistent := by
  have like : s.Like (s.modify id fun view => { view with change := view.change.clear }) :=
    .modify ⟨rfl, rfl, rfl, rfl, rfl, rfl, rfl⟩
  refine ⟨h.tree.of_like like, ?_, ?_, pictured⟩
  · intro group child hchild hany
    rw [(like.views group).children] at hchild
    have hne : child ≠ id := by
      rintro rfl
      simp [Change.any, Change.clear] at hany
    rw [modify_other _ _ hne] at hany
    by_cases hgroup : group = id
    · subst hgroup
      rw [quiet child hchild] at hany
      cases hany
    · rw [modify_other _ _ hgroup]
      exact h.covers group child hchild hany
  · intro group
    have place (other : ViewId) :
        ((s.modify id fun view => { view with change := view.change.clear }).views other).offset =
            (s.views other).offset ∧
          ((s.modify id fun view => { view with change := view.change.clear }).views other).size =
            (s.views other).size :=
      modify_forall (p := fun other view => view.offset = (s.views other).offset ∧
        view.size = (s.views other).size) (fun _ _ => ⟨rfl, rfl⟩) ⟨rfl, rfl⟩ other
    have congr (hplaced : s.Placed group) :=
      hplaced.congr (like.views group).content (place group)
        fun child _ => (like.views child).rests (place child)
    by_cases hgroup : group = id
    · subst hgroup
      exact .inr (congr placed)
    · rcases h.arranged group with hresizes | hplaced
      · rw [Arranged, modify_other _ _ hgroup]
        exact .inl hresizes
      · exact .inr (congr hplaced)

/-- A child of a group that places its children anew is placed. -/
theorem Consistent.place (h : s.Consistent) {group : ViewId} (hparent : s.parents id = some group)
    (hresizes : (s.views group).change.resizes = true) (mask : Gravity) (offset : Offset)
    (size : Size) : (s.modify id (·.refresh mask offset size)).Consistent := by
  have like : s.Like (s.modify id (·.refresh mask offset size)) :=
    .modify (View.refresh_like _ mask offset size)
  have moves : ∀ other, (s.views other).Moves
      ((s.modify id (·.refresh mask offset size)).views other) :=
    modify_forall (p := fun other view => (s.views other).Moves view) (fun _ _ => .refl _)
      (View.refresh_moves _ mask offset size)
  have noted : ∀ other, (s.views other).Noted
      ((s.modify id (·.refresh mask offset size)).views other) :=
    modify_forall (p := fun other view => (s.views other).Noted view) (fun _ _ => .refl _)
      (View.refresh_noted _ mask offset size)
  refine ⟨h.tree.of_like like, ?_, ?_, h.pictured.of_noted rfl noted⟩
  · intro p child hchild hany
    rw [(like.views p).children] at hchild
    by_cases hne : child = id
    · subst hne
      have heq : p = group := by
        have := (h.tree.child p child hchild).1
        rw [hparent] at this
        exact (Option.some.inj this).symm
      subst heq
      exact (moves p).grows.any (Change.any_of_resizes hresizes)
    · rw [modify_other _ _ hne] at hany
      exact (moves p).grows.any (h.covers p child hchild hany)
  · intro p
    by_cases hgroup : p = group
    · subst hgroup
      exact .inl ((moves p).grows.resizes hresizes)
    · rcases h.arranged p with hp | hplaced
      · exact .inl ((moves p).grows.resizes hp)
      · rcases (moves p).place with hsame | hp
        · refine .inr (hplaced.congr (like.views p).content hsame fun child hchild => ?_)
          have hne : child ≠ id := by
            rintro rfl
            have := (h.tree.child p child hchild).1
            rw [hparent] at this
            exact hgroup (Option.some.inj this).symm
          rw [modify_other _ _ hne]
          exact .refl _
        · exact .inl hp

/-- A group is not drawn. -/
theorem children_of_drawn {view : View} (h : view.drawn.isSome) : view.children = [] := by
  unfold View.drawn at h
  unfold View.children
  cases hcontent : view.content <;> simp_all

/-- The renderer is told of a view that it does not hold, and holds it. -/
theorem Pictured.add (h : s.Pictured) {data : Drawn}
    (hrendered : (s.views id).status.rendered = false) {view : View}
    (rendered : view.status.rendered = true) (selectable : view.selectable = (s.views id).selectable)
    (drawn : view.drawn = some data) :
    ((s.post (if (s.views id).selectable then [.add id data, .makeSelectable id]
      else [.add id data])).modify id fun _ => view).Pictured := by
  obtain ⟨picture, hreplay, hshown⟩ := h
  have hnone : picture id = none := by
    have := (hshown id).rendered
    rw [hrendered] at this
    simpa using this.symm
  refine ⟨Function.update picture id (some (data, (s.views id).selectable)), ?_, ?_⟩
  · simp only [modify_posts, post, Picture.replay_append, hreplay, Option.bind_some]
    cases (s.views id).selectable <;>
      simp [Picture.handle, hnone, Option.bind_some, Function.update_idem]
  · refine modify_forall (p := fun other view =>
      view.Shown (Function.update picture id (some (data, (s.views id).selectable)) other))
      (fun other hne => ?_) ?_
    · rw [Function.update_of_ne hne]
      exact hshown other
    · rw [Function.update_self]
      refine ⟨by simp [rendered], ?_, by simp⟩
      rintro data' selectable' heq
      obtain ⟨rfl, rfl⟩ := Prod.mk.inj (Option.some.inj heq)
      exact ⟨selectable.symm, by simp [drawn], fun _ => drawn⟩

/-- The renderer is told how a view that it holds has changed. -/
theorem Pictured.update (h : s.Pictured) {data : Drawn}
    (hrendered : (s.views id).status.rendered = true) {view : View}
    (rendered : view.status.rendered = true) (selectable : view.selectable = (s.views id).selectable)
    (drawn : view.drawn = some data) :
    ((s.post [.update id data]).modify id fun _ => view).Pictured := by
  obtain ⟨picture, hreplay, hshown⟩ := h
  have hsome : ∃ data', picture id = some (data', (s.views id).selectable) := by
    have := (hshown id).rendered
    rw [hrendered] at this
    obtain ⟨⟨data', selectable'⟩, heq⟩ := Option.isSome_iff_exists.mp this.symm
    exact ⟨data', by rw [heq, ((hshown id).drawn data' selectable' heq).1]⟩
  obtain ⟨data', hsome⟩ := hsome
  refine ⟨Function.update picture id (some (data, (s.views id).selectable)), ?_, ?_⟩
  · simp only [modify_posts, post, Picture.replay_append, hreplay, Option.bind_some]
    simp [Picture.handle, hsome]
  · refine modify_forall (p := fun other view =>
      view.Shown (Function.update picture id (some (data, (s.views id).selectable)) other))
      (fun other hne => ?_) ?_
    · rw [Function.update_of_ne hne]
      exact hshown other
    · rw [Function.update_self]
      refine ⟨by simp [rendered], ?_, by simp⟩
      rintro data' selectable' heq
      obtain ⟨rfl, rfl⟩ := Prod.mk.inj (Option.some.inj heq)
      exact ⟨selectable.symm, by simp [drawn], fun _ => drawn⟩

theorem rendered_status {status : Status} (h : status.rendered = true) :
    { status with rendered := true } = status := by
  cases status
  simp_all

theorem modify_modify (s : Screen) (id : ViewId) (f g : View → View) :
    (s.modify id f).modify id g = s.modify id fun view => g (f view) := by
  simp [modify]

theorem modify_const (s : Screen) (id : ViewId) (f : View → View) :
    s.modify id f = s.modify id fun _ => f (s.views id) := rfl

/-- What refreshing a view that is drawn comes to: a message and a rendered view -/
theorem render_clear {data : Drawn} (hdrawn : (s.views id).drawn = some data) :
    ∃ posts, (s.render id).modify id (fun view => { view with change := view.change.clear }) =
        (s.post posts).modify id (fun view =>
          { view with
            change := view.change.clear
            status := { view.status with rendered := true } }) ∧
      (s.Pictured → ((s.post posts).modify id fun view =>
          { view with
            change := view.change.clear
            status := { view.status with rendered := true } }).Pictured) := by
  cases hrendered : (s.views id).status.rendered with
  | true =>
    refine ⟨[.update id data], ?_, fun h => ?_⟩
    · simp only [render, hdrawn, hrendered, if_true]
      simp only [modify, post_views, rendered_status hrendered]
    · rw [modify_const]
      exact h.update hrendered rfl rfl hdrawn
  | false =>
    refine ⟨if (s.views id).selectable then [.add id data, .makeSelectable id]
      else [.add id data], ?_, fun h => ?_⟩
    · simp only [render, hdrawn, hrendered, Bool.false_eq_true, if_false, modify_modify]
    · rw [modify_const]
      exact h.add hrendered rfl rfl hdrawn

/-- Refreshing a view that is drawn -/
theorem Consistent.render (h : s.Consistent) (hdrawn : (s.views id).drawn.isSome) :
    ((s.render id).modify id fun view => { view with change := view.change.clear }).Consistent ∧
      s.Passed ((s.render id).modify id fun view => { view with change := view.change.clear })
        [id] ∧
      (((s.render id).modify id fun view => { view with change := view.change.clear }).views
        id).offset = (s.views id).offset ∧
      (((s.render id).modify id fun view => { view with change := view.change.clear }).views
        id).size = (s.views id).size := by
  have hchildren := children_of_drawn hdrawn
  obtain ⟨data, hdata⟩ := Option.isSome_iff_exists.mp hdrawn
  obtain ⟨posts, heq, hpictured⟩ := render_clear hdata
  rw [heq]
  have like : s.Like ((s.post posts).modify id fun view =>
      { view with
        change := view.change.clear
        status := { view.status with rendered := true } }) :=
    ⟨modify_forall (p := fun other view => (s.views other).Like view) (fun _ _ => .refl _)
      ⟨rfl, rfl, rfl, rfl, rfl, rfl, rfl⟩, rfl⟩
  have other : ∀ other, other ≠ id → ((s.post posts).modify id fun view =>
      { view with
        change := view.change.clear
        status := { view.status with rendered := true } }).views other = s.views other :=
    fun _ hne => modify_other _ _ hne
  have place : ∀ other, (((s.post posts).modify id fun view =>
      { view with
        change := view.change.clear
        status := { view.status with rendered := true } }).views other).offset =
          (s.views other).offset ∧ (((s.post posts).modify id fun view =>
      { view with
        change := view.change.clear
        status := { view.status with rendered := true } }).views other).size =
          (s.views other).size :=
    modify_forall (p := fun other view => view.offset = (s.views other).offset ∧
      view.size = (s.views other).size) (fun _ _ => ⟨rfl, rfl⟩) ⟨rfl, rfl⟩
  refine ⟨⟨h.tree.of_like like, ?_, ?_, hpictured h.pictured⟩, ⟨like, ?_, ?_, ?_, ?_⟩, place id⟩
  · intro group child hchild hany
    rw [(like.views group).children] at hchild
    have hgroup : group ≠ id := by
      rintro rfl
      simp [hchildren] at hchild
    have hne : child ≠ id := by
      rintro rfl
      simp [Change.any, Change.clear] at hany
    rw [other _ hne] at hany
    rw [other _ hgroup]
    exact h.covers group child hchild hany
  · intro group
    by_cases hgroup : group = id
    · subst hgroup
      exact .inr (placed_of_children_nil (by rw [(like.views group).children, hchildren]))
    · rcases h.arranged group with hresizes | hplaced
      · rw [Arranged, other _ hgroup]
        exact .inl hresizes
      · exact .inr (hplaced.congr (like.views group).content (place group) fun child _ =>
          (like.views child).rests (place child))
  · intro view hview
    exact other view (hview id (List.mem_singleton_self id)).1
  · exact modify_forall
      (p := fun other view => (s.views other).change.any = false → view.change.any = false)
      (fun _ _ hany => hany) fun _ => rfl
  · intro view hview
    rw [List.mem_singleton.mp hview, modify_same]
    rfl
  · refine modify_forall (p := fun other view => view.status.rendered = true →
      (s.views other).status.rendered = true ∨ ∃ view ∈ [id], s.Reach view other)
      (fun _ _ hrendered => .inl hrendered) fun _ => .inr ?_
    exact ⟨id, List.mem_singleton_self id, .refl⟩

/-- What the fuel of `refresh` is enough for -/
def Refreshes (refresh : Screen → ViewId → Screen) (fuel : ℕ) : Prop :=
  ∀ s id, s.Consistent → id < s.count → s.count ≤ fuel + id →
    (refresh s id).Consistent ∧ s.Passed (refresh s id) [id] ∧
      ((refresh s id).views id).offset = (s.views id).offset ∧
      ((refresh s id).views id).size = (s.views id).size

variable {refresh : Screen → ViewId → Screen} {fuel : ℕ} {group : ViewId}

/-- The children of a group keep their places when they are refreshed. -/
theorem foldl_refresh (hrefresh : Refreshes refresh fuel) (h : s.Consistent) (group : ViewId)
    {children : List ViewId} (hchildren : ∀ child ∈ children,
      s.parents child = some group ∧ child < s.count ∧ s.count ≤ fuel + child) :
    (children.foldl refresh s).Consistent ∧ s.Passed (children.foldl refresh s) children ∧
      ∀ sibling, s.parents sibling = some group →
        ((children.foldl refresh s).views sibling).offset = (s.views sibling).offset ∧
          ((children.foldl refresh s).views sibling).size = (s.views sibling).size := by
  induction children generalizing s with
  | nil => exact ⟨h, .nil s, fun _ _ => ⟨rfl, rfl⟩⟩
  | cons child children ih =>
    obtain ⟨hparent, hlt, hfuel⟩ := hchildren child (List.mem_cons_self ..)
    obtain ⟨hconsistent, hpassed, hplace⟩ := hrefresh s child h hlt hfuel
    obtain ⟨hconsistent', hpassed', hplace'⟩ := ih hconsistent fun sibling hsibling => by
      rw [hpassed.like.parents, hpassed.like.count]
      exact hchildren sibling (List.mem_cons_of_mem _ hsibling)
    refine ⟨hconsistent', hpassed.append hpassed', fun sibling hsibling => ?_⟩
    obtain ⟨hoffset, hsize⟩ := hplace' sibling (by rwa [hpassed.like.parents])
    by_cases heq : sibling = child
    · subst heq
      exact ⟨hoffset.trans hplace.1, hsize.trans hplace.2⟩
    · have hframe := hpassed.frame sibling fun id hid => by
        rw [List.mem_singleton.mp hid]
        exact ⟨heq, (h.tree.not_above_sibling hparent hsibling).1⟩
      rw [hframe] at hoffset hsize
      exact ⟨hoffset, hsize⟩

/-- Placing a view, and refreshing it -/
theorem place_refresh (hrefresh : Refreshes refresh fuel) (h : s.Consistent) {child : ViewId}
    (hparent : s.parents child = some group) (hlt : child < s.count)
    (hfuel : s.count ≤ fuel + child) (hresizes : (s.views group).change.resizes = true)
    (mask : Gravity) (offset : Offset) (size : Size) :
    (refresh (s.modify child (·.refresh mask offset size)) child).Consistent ∧
      s.Passed (refresh (s.modify child (·.refresh mask offset size)) child) [child] ∧
      ((refresh (s.modify child (·.refresh mask offset size)) child).views child).PlacedIn
        mask offset size := by
  have hplaced := h.place hparent hresizes mask offset size
  have like : s.Like (s.modify child (·.refresh mask offset size)) :=
    .modify (View.refresh_like _ mask offset size)
  obtain ⟨hconsistent, hpassed, hoffset, hsize⟩ := hrefresh _ child hplaced hlt hfuel
  refine ⟨hconsistent, ⟨like.trans hpassed.like, ?_, ?_, hpassed.clean, ?_⟩, ?_⟩
  · intro other hother
    rw [hpassed.frame other (by rwa [like.parents]),
      modify_other _ _ (hother child (List.mem_singleton_self child)).1]
  · intro other hany
    by_cases heq : other = child
    · rw [heq]
      exact hpassed.clean child (List.mem_singleton_self child)
    · exact hpassed.quiet other (by rwa [modify_other _ _ heq])
  · intro other hrendered
    rw [← like.reach]
    refine (hpassed.rendered other hrendered).imp_left ?_
    exact modify_forall (p := fun other view => view.status.rendered = true →
      (s.views other).status.rendered = true) (fun _ _ h => h)
      (by rw [View.refresh_status]; exact id) other
  · rw [modify_same] at hoffset hsize
    have hlike := hpassed.like.views child
    rw [modify_same] at hlike
    exact (View.refresh_placedIn (s.views child) mask offset size).congr
      (hlike.rests ⟨hoffset, hsize⟩)

/-- The children of a group that resizes them are placed when they are refreshed. -/
theorem resizeChildren_refresh (hrefresh : Refreshes refresh fuel) (h : s.Consistent)
    (layout : Layout) {children : List ViewId} (hchildren : ∀ child ∈ children,
      s.parents child = some group ∧ child < s.count ∧ s.count ≤ fuel + child)
    (hnodup : children.Nodup) (hresizes : (s.views group).change.resizes = true)
    (offset : Offset) (size : Size) :
    (resizeChildren refresh layout s offset size children).Consistent ∧
      s.Passed (resizeChildren refresh layout s offset size children) children ∧
      PlacedFrom (resizeChildren refresh layout s offset size children).views layout offset size
        children := by
  induction children generalizing s offset size with
  | nil => exact ⟨h, .nil s, trivial⟩
  | cons child children ih =>
    obtain ⟨hparent, hlt, hfuel⟩ := hchildren child (List.mem_cons_self ..)
    obtain ⟨hnotMem, hnodup⟩ := List.nodup_cons.mp hnodup
    obtain ⟨hconsistent, hpassed, hplaced⟩ :=
      place_refresh hrefresh h hparent hlt hfuel hresizes layout.mask offset size
    have hgroup := hpassed.frame group fun id hid => by
      rw [List.mem_singleton.mp hid]
      exact ⟨(Nat.ne_of_lt (h.tree.parent_lt child group hparent)),
        (h.tree.not_above_sibling hparent hparent).2⟩
    rw [← hgroup] at hresizes
    obtain ⟨hconsistent', hpassed', hplaced'⟩ := ih hconsistent (fun sibling hsibling => by
      rw [hpassed.like.parents, hpassed.like.count]
      exact hchildren sibling (List.mem_cons_of_mem _ hsibling)) hnodup hresizes
      (layout.advance ((refresh (s.modify child (·.refresh layout.mask offset size)) child).views
        child) offset size).1
      (layout.advance ((refresh (s.modify child (·.refresh layout.mask offset size)) child).views
        child) offset size).2
    -- what follows does not touch the child, as its siblings are not above it
    have hsame := hpassed'.frame child fun id hid => by
      rw [hpassed.like.parents]
      refine ⟨fun heq => hnotMem (heq ▸ hid), ?_⟩
      exact (h.tree.not_above_sibling (hchildren id (List.mem_cons_of_mem _ hid)).1 hparent).1
    refine ⟨hconsistent', hpassed.append hpassed', ?_, ?_⟩
    · simp only [resizeChildren]
      rw [hsame]
      exact hplaced
    · simp only [resizeChildren]
      rw [hsame]
      exact hplaced'

/-- A group that is not drawn can forget its changes. -/
theorem Pictured.clear (h : s.Pictured) (hdrawn : (s.views id).drawn = none) :
    (s.modify id fun view => { view with change := view.change.clear }).Pictured := by
  obtain ⟨picture, hreplay, hshown⟩ := h
  refine ⟨picture, hreplay, modify_forall (p := fun other view => view.Shown (picture other))
    (fun other _ => hshown other) ⟨(hshown id).rendered, ?_, ?_⟩⟩
  · intro data selectable hentry
    have := ((hshown id).drawn data selectable hentry).2.1
    simp [hdrawn] at this
  · intro _ hisSome
    have : ({ s.views id with change := (s.views id).change.clear } : View).drawn = none := hdrawn
    simp [this] at hisSome

/-- Refreshing the children of a group is refreshing the group. -/
theorem Passed.ofChildren {children : List ViewId} (h : s.Passed s' children)
    (hchildren : ∀ child ∈ children, child ∈ (s.views id).children) (tree : s.Tree) :
    s.Passed (s'.modify id fun view => { view with change := view.change.clear }) [id] := by
  have above : ∀ child ∈ children, Above s.parents id child := fun child hchild =>
    .single (tree.child id child (hchildren child hchild)).1
  refine ⟨h.like.trans (.modify ⟨rfl, rfl, rfl, rfl, rfl, rfl, rfl⟩), ?_, ?_, ?_, ?_⟩
  · intro other hother
    obtain ⟨hne, hnot⟩ := hother id (List.mem_singleton_self id)
    rw [modify_other _ _ hne]
    refine h.frame other fun child hchild => ⟨?_, fun hunder => ?_⟩
    · rintro rfl
      exact hnot (above other hchild)
    · exact hnot ((above child hchild).trans hunder)
  · intro other hany
    by_cases heq : other = id
    · rw [heq, modify_same]
      rfl
    · rw [modify_other _ _ heq]
      exact h.quiet other hany
  · intro other hother
    rw [List.mem_singleton.mp hother, modify_same]
    rfl
  · intro other hrendered
    have hrendered' : (s'.views other).status.rendered = true :=
      modify_forall (p := fun other view => view.status.rendered = true →
        (s'.views other).status.rendered = true) (fun _ _ h => h) (fun h => h) other hrendered
    refine (h.rendered other hrendered').imp_right ?_
    rintro ⟨child, hchild, hreach⟩
    exact ⟨id, List.mem_singleton_self id, .head (hchildren child hchild) hreach⟩

/-- `ViewRefresh::refresh` keeps a screen consistent, and the refreshed view and everything that
is reached from it have no pending changes. -/
theorem refreshes_refresh (fuel : ℕ) : Refreshes (Screen.refresh fuel) fuel := by
  induction fuel with
  | zero =>
    intro s id h hlt hfuel
    omega
  | succ fuel ih =>
    intro s id h hlt hfuel
    cases hany : (s.views id).change.any with
    | false =>
      have heq : Screen.refresh (fuel + 1) s id = s := by
        simp only [Screen.refresh, hany, Bool.false_eq_true, if_false]
      rw [heq]
      refine ⟨h, ⟨.refl s, fun _ _ => rfl, fun _ h => h, ?_, fun _ h => .inl h⟩, rfl, rfl⟩
      intro view hview
      rw [List.mem_singleton.mp hview, hany]
    | true =>
      simp only [Screen.refresh, hany, if_true]
      cases hcontent : (s.views id).content with
      | color _ | text _ _ | texture _ => exact h.render (by simp [View.drawn, hcontent])
      | group layout children =>
        have hchildren : (s.views id).children = children := by simp [View.children, hcontent]
        have hin : ∀ child ∈ children,
            s.parents child = some id ∧ child < s.count ∧ s.count ≤ fuel + child := by
          intro child hchild
          rw [← hchildren] at hchild
          obtain ⟨hparent, hchildLt⟩ := h.tree.child id child hchild
          have hidLt := h.tree.child_lt hchild
          refine ⟨hparent, hchildLt, ?_⟩
          have hle : fuel + 1 + id ≤ fuel + child := by
            rw [Nat.add_assoc, Nat.add_comm 1]
            exact Nat.add_le_add_left hidLt fuel
          exact Nat.le_trans hfuel hle
        have hmem : ∀ child ∈ children, child ∈ (s.views id).children := by simp [hchildren]
        have frame {s' : Screen} (hpassed : s.Passed s' children) : s'.views id = s.views id :=
          hpassed.frame id fun child hchild =>
            ⟨Nat.ne_of_lt (h.tree.child_lt (hmem child hchild)),
              (h.tree.not_above_sibling (hin child hchild).1 (hin child hchild).1).2⟩
        have finish {s' : Screen} (hconsistent : s'.Consistent) (hpassed : s.Passed s' children)
            (hplaced : PlacedFrom s'.views layout (s.views id).offset (s.views id).size
              children) :
            (s'.modify id fun view => { view with change := view.change.clear }).Consistent := by
          refine hconsistent.clear ?_ ?_ (hconsistent.pictured.clear ?_)
          · rw [frame hpassed, hchildren]
            exact hpassed.clean
          · unfold Placed
            rw [frame hpassed, hcontent]
            exact hplaced
          · rw [frame hpassed]
            simp [View.drawn, hcontent]
        dsimp only
        split_ifs with hresizes
        · obtain ⟨hconsistent, hpassed, hplaced⟩ := resizeChildren_refresh ih h
            layout hin (hchildren ▸ h.tree.nodup id) hresizes (s.views id).offset
            (s.views id).size
          refine ⟨finish hconsistent hpassed hplaced, hpassed.ofChildren hmem h.tree, ?_⟩
          rw [modify_same, frame hpassed]
          exact ⟨rfl, rfl⟩
        · obtain ⟨hconsistent, hpassed, hplace⟩ := foldl_refresh ih h id hin
          have hplaced := (h.arranged id).resolve_left hresizes
          unfold Placed at hplaced
          rw [hcontent] at hplaced
          refine ⟨finish hconsistent hpassed (hplaced.congr fun child hchild =>
            (hpassed.like.views child).rests (hplace child (hin child hchild).1)),
            hpassed.ofChildren hmem h.tree, ?_⟩
          rw [modify_same, frame hpassed]
          exact ⟨rfl, rfl⟩

end Screen

end Fimbulwinter.Gui
