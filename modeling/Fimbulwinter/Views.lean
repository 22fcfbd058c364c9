import Fimbulwinter.TransitionRuns
import Mathlib.Logic.Function.Basic

/-! # Views of the graphical interface

The retained tree of `engine/gui`: `view_data.hpp`, `view.hpp`, `render.cpp`, `view_refresh.hpp`,
`update.hpp` and the parts of `creation.cpp` and `reaction.cpp` that build and grow it. A view
is known by its place in the order of creation, which is also its entity, and pointers between
views are such places. Dimensions are of 32 bits and wrap around. Functions that follow
children or parents take fuel. -/
namespace Fimbulwinter.Gui

/-- `dimen_t` -/
abbrev Dimen := BitVec 32

abbrev ViewId := ℕ

abbrev Asset := BitVec 32

inductive Layout
  | horizontal
  | vertical
  | relative
  deriving DecidableEq, Repr

/-- `Change`, the pending changes of a view as flags -/
structure Change where
  flags : BitVec 32
  deriving DecidableEq, Repr

namespace Change

def data : BitVec 32 := 1 <<< 2
def visibility : BitVec 32 := 1 <<< 4
def movedH : BitVec 32 := 1 <<< 5
def movedW : BitVec 32 := 1 <<< 6
def sizeHeight : BitVec 32 := 1 <<< 7
def sizeWidth : BitVec 32 := 1 <<< 8

/-- `Change()` -/
def initial : Change := ⟨0xFF⟩

def isSet (change : Change) (flag : BitVec 32) : Bool := change.flags &&& flag != 0

def set (change : Change) (flags : BitVec 32) : Change := ⟨change.flags ||| flags⟩

def any (change : Change) : Bool := change.flags != 0

def clear (_ : Change) : Change := ⟨0⟩

def affectsMoved (change : Change) : Bool := change.isSet (movedH ||| movedW)
def affectsSize (change : Change) : Bool := change.isSet (sizeHeight ||| sizeWidth)
def affectsSizeH (change : Change) : Bool := change.isSet sizeHeight
def affectsSizeW (change : Change) : Bool := change.isSet sizeWidth

end Change

/-- `Gravity`, of which `uint_fast16_t` holds at least these bits -/
structure Gravity where
  flags : BitVec 16
  deriving DecidableEq, Repr

namespace Gravity

def horizontalLeft : BitVec 16 := 1 <<< 0
def horizontalCentre : BitVec 16 := 1 <<< 1
def horizontalRight : BitVec 16 := 1 <<< 2
def verticalTop : BitVec 16 := 1 <<< 3
def verticalCentre : BitVec 16 := 1 <<< 4
def verticalBottom : BitVec 16 := 1 <<< 5

def unmasked : Gravity := ⟨0xFFFF⟩

/-- `operator ==`, which tests a bit -/
def has (gravity : Gravity) (flag : BitVec 16) : Bool := gravity.flags &&& flag != 0

def mask (gravity other : Gravity) : Gravity := ⟨gravity.flags &&& other.flags⟩

end Gravity

structure Margin where
  left : Dimen
  right : Dimen
  top : Dimen
  bottom : Dimen
  deriving DecidableEq, Repr

def Margin.height (margin : Margin) : Dimen := margin.top + margin.bottom
def Margin.width (margin : Margin) : Dimen := margin.left + margin.right

structure Offset where
  height : Dimen
  width : Dimen
  deriving DecidableEq, Repr

/-- `Size::Type` -/
inductive SizeType
  | fixed
  | parent
  | wrap
  deriving DecidableEq, Repr

/-- `extended_dimen_t` -/
structure ExtendedDimen where
  type : SizeType
  value : Dimen
  deriving DecidableEq, Repr

def ExtendedDimen.isActive (dimen : ExtendedDimen) : Bool :=
  dimen.type = .fixed || dimen.type = .wrap

structure Size where
  height : ExtendedDimen
  width : ExtendedDimen
  deriving DecidableEq, Repr

/-- `Status::State` -/
inductive State
  | default
  | highlight
  | pressed
  deriving DecidableEq, Repr

structure Status where
  rendered : Bool
  shouldRender : Bool
  state : State
  deriving DecidableEq, Repr

/-- `resource::Color`, with the colours that a selector names looked up -/
inductive Color
  | simple (color : BitVec 32)
  | colorSelector (stateDefault stateHighlight statePressed : BitVec 32)
  deriving DecidableEq, Repr

def Color.get (state : State) : Color → BitVec 32
  | .simple color => color
  | .colorSelector stateDefault stateHighlight statePressed =>
    match state with
    | .highlight => stateHighlight
    | .pressed => statePressed
    | .default => stateDefault

/-- `View::Content` -/
inductive Content
  | group (layout : Layout) (children : List ViewId)
  | color (color : Option Color)
  | text (display : List UInt8) (color : Option Color)
  | texture (res : Asset)
  deriving DecidableEq, Repr

structure View where
  content : Content
  gravity : Gravity
  margin : Margin
  offset : Offset
  size : Size
  parent : Option ViewId
  change : Change
  status : Status
  selectable : Bool
  deriving DecidableEq, Repr

def View.children (view : View) : List ViewId :=
  match view.content with
  | .group _ children => children
  | _ => []

/-- A group gets other children. -/
def View.regroup (view : View) (f : List ViewId → List ViewId) : View :=
  match view.content with
  | .group layout children => { view with content := .group layout (f children) }
  | _ => view

/-- What `show` does to the view itself -/
def View.shown (view : View) : View :=
  { view with
    status := { view.status with shouldRender := true }
    change := view.change.set Change.visibility }

/-- A message to the renderer shows this much of a view: `PanelC`, `Text` or `PanelT`. -/
inductive Drawn
  | panelC (offset : Offset) (height width : Dimen) (color : BitVec 32)
  | text (offset : Offset) (color : BitVec 32) (display : List UInt8)
  | panelT (offset : Offset) (height width : Dimen) (texture : Asset)
  deriving DecidableEq, Repr

/-- What `ViewRenderer` tells of a view; groups are not drawn. -/
def View.drawn (view : View) : Option Drawn :=
  let get (color : Option Color) := (color.map (Color.get view.status.state)).getD 0
  match view.content with
  | .group _ _ => none
  | .color color =>
    some (.panelC view.offset view.size.height.value view.size.width.value (get color))
  | .text display color => some (.text view.offset (get color) display)
  | .texture res => some (.panelT view.offset view.size.height.value view.size.width.value res)

/-- `post_add_panel` and `post_add_text`, `post_update_panel` and `post_update_text`,
`post_make_selectable` and `post_remove` -/
inductive Post
  | add (entity : ViewId) (data : Drawn)
  | update (entity : ViewId) (data : Drawn)
  | makeSelectable (entity : ViewId)
  | remove (entity : ViewId)
  deriving DecidableEq, Repr

/-- The views and what has been posted to the renderer -/
structure Screen where
  views : ViewId → View
  count : ℕ
  posts : List Post

namespace Screen

def modify (s : Screen) (id : ViewId) (f : View → View) : Screen :=
  { s with views := Function.update s.views id (f (s.views id)) }

def post (s : Screen) (posts : List Post) : Screen := { s with posts := s.posts ++ posts }

end Screen

/-! ## Placing views -/

def View.setChange (view : View) (flags : BitVec 32) : View :=
  { view with change := view.change.set flags }

/-- Update a height, and note whether it changed. -/
def View.resizeH (view : View) (value : Dimen) : View :=
  { view with
    size := { view.size with height := { view.size.height with value } }
    change := if view.size.height.value = value then view.change
      else view.change.set Change.sizeHeight }

def View.resizeW (view : View) (value : Dimen) : View :=
  { view with
    size := { view.size with width := { view.size.width with value } }
    change := if view.size.width.value = value then view.change
      else view.change.set Change.sizeWidth }

def View.moveH (view : View) (value : Dimen) : View :=
  { view with
    offset := { view.offset with height := value }
    change := if view.offset.height = value then view.change
      else view.change.set Change.movedH }

def View.moveW (view : View) (value : Dimen) : View :=
  { view with
    offset := { view.offset with width := value }
    change := if view.offset.width = value then view.change
      else view.change.set Change.movedW }

/-- The vertical part of `ViewRefresh::refresh` with what a parent gives -/
def View.refreshH (view : View) (mask : Gravity) (offset size : Dimen) : View :=
  let gravity := view.gravity.mask mask
  match view.size.height.type with
  | .parent => (view.resizeH (size - view.margin.height)).moveH (offset + view.margin.top)
  | .fixed | .wrap =>
    if gravity.has Gravity.verticalBottom then
      view.moveH (offset + (size - view.size.height.value - view.margin.bottom))
    else if gravity.has Gravity.verticalCentre then
      view.moveH (offset + (size - view.size.height.value) / 2 +
        (view.margin.top - view.margin.bottom))
    else view.moveH (offset + view.margin.top)

def View.refreshW (view : View) (mask : Gravity) (offset size : Dimen) : View :=
  let gravity := view.gravity.mask mask
  match view.size.width.type with
  | .parent => (view.resizeW (size - view.margin.width)).moveW (offset + view.margin.left)
  | .fixed | .wrap =>
    if gravity.has Gravity.horizontalRight then
      view.moveW (offset + (size - view.size.width.value - view.margin.right))
    else if gravity.has Gravity.horizontalCentre then
      view.moveW (offset + (size - view.size.width.value) / 2 +
        (view.margin.left - view.margin.right))
    else view.moveW (offset + view.margin.left)

/-- `ViewRefresh::refresh` with the mask, the offset and the size of a parent -/
def View.refresh (view : View) (mask : Gravity) (offset : Offset) (size : Size) : View :=
  (view.refreshH mask offset.height size.height.value).refreshW mask offset.width size.width.value

def Layout.mask : Layout → Gravity
  | .horizontal =>
    ⟨Gravity.verticalBottom ||| Gravity.verticalCentre ||| Gravity.verticalTop⟩
  | .vertical =>
    ⟨Gravity.horizontalLeft ||| Gravity.horizontalCentre ||| Gravity.horizontalRight⟩
  | .relative => Gravity.unmasked

/-- What is left for the next child of a group -/
def Layout.advance (layout : Layout) (child : View) (offset : Offset) (size : Size) :
    Offset × Size :=
  match layout with
  | .horizontal =>
    let childSize := child.margin.width + child.size.width.value
    ({ offset with width := offset.width + childSize },
      { size with width := { size.width with value := size.width.value - childSize } })
  | .vertical =>
    let childSize := child.margin.height + child.size.height.value
    ({ offset with height := offset.height + childSize },
      { size with height := { size.height with value := size.height.value - childSize } })
  | .relative => (offset, size)

/-! ## Refreshing -/

namespace Screen

/-- `ViewRenderer::refresh` -/
def render (s : Screen) (id : ViewId) : Screen :=
  let view := s.views id
  match view.drawn with
  | none => s
  | some data =>
    if view.status.rendered then s.post [.update id data]
    else (s.post (if view.selectable then [.add id data, .makeSelectable id] else [.add id data])
      ).modify id fun view => { view with status := { view.status with rendered := true } }

/-- `ViewRenderer::remove` -/
def remove (s : Screen) (id : ViewId) : Screen :=
  if (s.views id).status.rendered then
    (s.modify id fun view => { view with status := { view.status with rendered := false } }).post
      [.remove id]
  else s

/-- The loop of `ContentResize` over the children of a group -/
def resizeChildren (refresh : Screen → ViewId → Screen) (layout : Layout) :
    Screen → Offset → Size → List ViewId → Screen
  | s, _, _, [] => s
  | s, offset, size, child :: children =>
    let s := refresh (s.modify child (·.refresh layout.mask offset size)) child
    let (offset, size) := layout.advance (s.views child) offset size
    resizeChildren refresh layout s offset size children

/-- `ViewRefresh::refresh` -/
def refresh : ℕ → Screen → ViewId → Screen
  | 0, s, _ => s
  | fuel + 1, s, id =>
    let view := s.views id
    if view.change.any then
      let s :=
        match view.content with
        | .group layout children =>
          if view.change.affectsSize || view.change.affectsMoved then
            resizeChildren (refresh fuel) layout s view.offset view.size children
          else children.foldl (refresh fuel) s
        | _ => s.render id
      s.modify id fun view => { view with change := view.change.clear }
    else s

/-! ## Updating -/

/-- `wrap_content` of a group's height -/
def wrapHeight (s : Screen) (layout : Layout) (children : List ViewId) : Dimen :=
  match layout with
  | .vertical =>
    children.foldl (fun wrap child =>
      wrap + ((s.views child).size.height.value + (s.views child).margin.height)) 0
  | _ =>
    children.foldl (fun wrap child =>
      let height := (s.views child).size.height
      if height.isActive && wrap < height.value then height.value else wrap) 0

/-- `wrap_content` of a group's width -/
def wrapWidth (s : Screen) (layout : Layout) (children : List ViewId) : Dimen :=
  match layout with
  | .horizontal =>
    children.foldl (fun wrap child =>
      wrap + ((s.views child).size.width.value + (s.views child).margin.width)) 0
  | _ =>
    children.foldl (fun wrap child =>
      let width := (s.views child).size.width
      if width.isActive && wrap < width.value then width.value else wrap) 0

/-- `wrap` of a group's height; when it stays, the group's children may still have to move. -/
def rewrapH (s : Screen) (layout : Layout) (children : List ViewId) (view : View)
    (updateChanges : Change) : View × Change :=
  let value := s.wrapHeight layout children
  if view.size.height.type = .wrap ∧ view.size.height.value ≠ value then
    ({ view with size := { view.size with height := { view.size.height with value } } },
      updateChanges.set Change.sizeHeight)
  else (view.setChange Change.movedH, updateChanges)

def rewrapW (s : Screen) (layout : Layout) (children : List ViewId) (view : View)
    (updateChanges : Change) : View × Change :=
  let value := s.wrapWidth layout children
  if view.size.width.type = .wrap ∧ view.size.width.value ≠ value then
    ({ view with size := { view.size with width := { view.size.width with value } } },
      updateChanges.set Change.sizeWidth)
  else (view.setChange Change.movedW, updateChanges)

/-- What `creation` and `parent` do to a group before they tell its parent -/
def rewrap (s : Screen) (id : ViewId) (height width : Bool) : Screen × Change :=
  match (s.views id).content with
  | .group layout children =>
    let changed := (s.views id, (⟨Change.data⟩ : Change))
    let changed := if height then s.rewrapH layout children changed.1 changed.2 else changed
    let changed := if width then s.rewrapW layout children changed.1 changed.2 else changed
    (s.modify id fun _ => changed.1, changed.2)
  | _ => (s, ⟨Change.data⟩)

/-- `ViewUpdater::parent` -/
def parent : ℕ → Screen → ViewId → Change → Screen
  | 0, s, _, _ => s
  | fuel + 1, s, child, childChanges =>
    match (s.views child).parent with
    | none => s
    | some id =>
      let (s, updateChanges) := s.rewrap id childChanges.affectsSizeH childChanges.affectsSizeW
      (parent fuel s id updateChanges).modify id (·.setChange updateChanges.flags)

/-- `ViewUpdater::creation` -/
def creation (s : Screen) (id : ViewId) : Screen :=
  let (s, updateChanges) := s.rewrap id true true
  (s.parent s.count id updateChanges).modify id (·.setChange updateChanges.flags)

/-- `wrap` of a text's height -/
def wrapTextH (view : View) (updateChanges : Change) : View × Change :=
  if view.size.height.type = .wrap ∧ view.size.height.value ≠ 6 then
    ({ view with size.height.value := 6 }, updateChanges.set Change.sizeHeight)
  else (view, updateChanges)

/-- `wrap` of a text's width -/
def wrapTextW (display : List UInt8) (view : View) (updateChanges : Change) : View × Change :=
  let value := BitVec.ofNat 32 (display.length * 6)
  if view.size.width.type = .wrap ∧ view.size.width.value ≠ value then
    ({ view with size.width.value := value }, updateChanges.set Change.sizeWidth)
  else (view, updateChanges)

/-- `ViewUpdater::update` of a text -/
def updateText (s : Screen) (id : ViewId) (display : List UInt8) : Screen × Change :=
  let changed := wrapTextH (s.views id) ⟨Change.data⟩
  let changed := wrapTextW display changed.1 changed.2
  (s.modify id fun _ => changed.1.setChange changed.2.flags, changed.2)

/-- What `ChildUpdater` does to a view and everything under it -/
def visit (f : Screen → ViewId → Screen) : ℕ → Screen → ViewId → Screen
  | 0, s, _ => s
  | fuel + 1, s, id => (s.views id).children.foldl (visit f fuel) (f s id)

/-- The updater of `hide` -/
def unrender (s : Screen) (id : ViewId) : Screen :=
  match (s.views id).content with
  | .group _ _ => s.modify id (·.setChange Change.data)
  | _ => (s.remove id).modify id (·.setChange Change.data)

/-- All that `hide` and `show` tell a parent -/
def visibilityChange : Change :=
  ⟨Change.sizeHeight ||| Change.sizeWidth ||| Change.visibility⟩

/-- `Group::abandon` -/
def abandon (s : Screen) (id child : ViewId) : Screen := s.modify id (·.regroup (·.erase child))

/-- `Group::adopt` -/
def adopt (s : Screen) (id child : ViewId) : Screen := s.modify id (·.regroup (· ++ [child]))

/-- What `hide` does to a view and everything under it -/
def hideContent (s : Screen) (id : ViewId) : Screen :=
  (s.modify id fun view => { view with status := { view.status with shouldRender := false } }).visit
    unrender s.count id

/-- `ViewUpdater::hide` -/
def hide (s : Screen) (id : ViewId) : Screen :=
  let s := s.hideContent id
  match (s.views id).parent with
  | none => s
  | some group => (s.abandon group id).parent s.count id visibilityChange

/-- `ViewUpdater::show` -/
def showView (s : Screen) (id : ViewId) : Screen :=
  let s := s.modify id .shown
  match (s.views id).parent with
  | none => s
  | some group =>
    ((s.adopt group id).parent s.count id visibilityChange).modify group
      (·.setChange (Change.sizeHeight ||| Change.sizeWidth))

/-- The updater of `status` -/
def restate (state : State) (s : Screen) (id : ViewId) : Screen :=
  s.modify id fun view =>
    { view with
      status := { view.status with state }
      change := view.change.set Change.data }

/-- `ViewUpdater::status` -/
def status (s : Screen) (id : ViewId) (state : State) : Screen :=
  let s := s.visit (restate state) s.count id
  s.parent s.count id ⟨Change.data⟩

/-- `react` of a text -/
def reactText (s : Screen) (id : ViewId) (display : List UInt8) : Screen :=
  match (s.views id).content with
  | .text _ color =>
    let s := s.modify id fun view => { view with content := .text display color }
    let (s, change) := s.updateText id display
    s.parent s.count id change
  | _ => s

end Screen

/-- `ViewData`; a view with interactions is selectable. -/
structure ViewData where
  size : Size
  margin : Margin
  gravity : Gravity
  selectable : Bool
  deriving DecidableEq, Repr

/-- `DataVariant`, from which views are created -/
inductive DataVariant
  | group (data : ViewData) (layout : Layout) (children : List DataVariant)
  | panel (data : ViewData) (color : Option Color)
  | text (data : ViewData) (display : List UInt8) (color : Option Color)
  | texture (data : ViewData) (texture : Asset)

/-- The constructor of `View` -/
def View.new (content : Content) (data : ViewData) (parent : ViewId) : View where
  content
  gravity := data.gravity
  margin := data.margin
  offset := ⟨0, 0⟩
  size := data.size
  parent := some parent
  change := .initial
  status := ⟨false, true, .default⟩
  selectable := data.selectable

namespace Screen

/-- A view after all others -/
def emplace (s : Screen) (view : View) : Screen :=
  { s with views := Function.update s.views s.count view, count := s.count + 1 }

/-- `create` of one view under its parent -/
def create (s : Screen) (content : Content) (data : ViewData) (parent : ViewId) : Screen :=
  (s.emplace (.new content data parent)).adopt parent s.count

mutual

/-- `create_view` -/
def createView (s : Screen) (parent : ViewId) : DataVariant → Screen
  | .group data layout children =>
    createViews (s.create (.group layout []) data parent) s.count children
  | .panel data color => s.create (.color color) data parent
  | .text data display color =>
    ((s.create (.text display color) data parent).updateText s.count display).1
  | .texture data texture => s.create (.texture texture) data parent

/-- `create_views` -/
def createViews (s : Screen) (parent : ViewId) : List DataVariant → Screen
  | [] => s
  | data :: datas => createViews (createView s parent data) parent datas

end

/-- The loop that hides the items of a list from `index` on; none when there is no such child -/
def hideItems (id : ViewId) : ℕ → ℕ → Screen → Option Screen
  | 0, _, s => some s
  | items + 1, index, s =>
    match (s.views id).children[index]? with
    | none => none
    | some child => hideItems id items (index + 1) (s.hide child)

/-- `react` of a list whose items are created from a template -/
def reactList (s : Screen) (id : ViewId) (itemTemplate : DataVariant) (goalSize : ℕ) :
    Option Screen :=
  let currentSize := (s.views id).children.length
  if currentSize = goalSize then some s
  else if currentSize < goalSize then
    some ((s.createViews id (List.replicate (goalSize - currentSize) itemTemplate)).creation id)
  else hideItems id (currentSize - goalSize) goalSize s

end Screen

/-- What is done to the views between two frames, and at the end of one -/
inductive Message
  | text (view : ViewId) (display : List UInt8)
  | list (view : ViewId) (itemTemplate : DataVariant) (size : ℕ)
  | close (target : ViewId)
  | selection (target : ViewId) (state : State)
  | showView (view : ViewId)
  | refresh

/-- A child is accessed beyond the children that there are. -/
inductive Misuse
  | outOfRange
  deriving DecidableEq, Repr

/-- A screen with its root takes a message. -/
def Screen.step (root : ViewId) (s : Screen) : Message → Except Misuse Screen
  | .text view display => .ok (s.reactText view display)
  | .list view itemTemplate size =>
    match s.reactList view itemTemplate size with
    | none => .error .outOfRange
    | some s => .ok s
  | .close target => .ok (s.hide target)
  | .selection target state => .ok (s.status target state)
  | .showView view => .ok (s.showView view)
  | .refresh => .ok (s.refresh s.count root)

/-- What messages are about: views that there are, of the content that is meant, and only a view
that is not among its parent's children is shown again. -/
def Screen.Accepts (s : Screen) : Message → Prop
  | .text view _ => view < s.count ∧ ∃ display color, (s.views view).content = .text display color
  | .list view _ _ =>
    view < s.count ∧ ∃ layout children, (s.views view).content = .group layout children
  | .close target => target < s.count
  | .selection target _ => target < s.count
  | .showView view => view < s.count ∧ ∀ group, (s.views view).parent = some group →
    view ∉ (s.views group).children ∧
      ∃ layout children, (s.views group).content = .group layout children
  | .refresh => True

end Fimbulwinter.Gui
