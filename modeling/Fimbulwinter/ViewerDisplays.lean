import Fimbulwinter.DenseTable
import Fimbulwinter.TransitionRuns
import Mathlib.Algebra.Group.Defs
import Mathlib.Data.PNat.Basic

/-! # Displays of the viewer and the renderer

`update` of `engine/graphics/viewer.cpp`, the display messages that it posts, and what the
renderer does with them. The default token is `none`; where it is looked up, an empty bucket
answers if one of the five that are tried is empty. The matrices of cameras are left
uninterpreted, and memory for the list of viewports does not run out. -/
namespace Fimbulwinter.Viewer

abbrev Token := ℕ+

inductive Misuse
  /-- `debug_unreachable` is reached. -/
  | unreachable
  /-- A component is read through an empty bucket. -/
  | emptyBucket
  /-- The recursion over the nodes goes deeper than the stack allows. -/
  | stackOverflow
  deriving DecidableEq, Repr

/-- A rectangle of the screen. -/
structure Area where
  x : ℤ
  y : ℤ
  width : ℤ
  height : ℤ
  deriving DecidableEq, Repr

structure Viewport where
  area : Area
  camera : Option Token
  deriving DecidableEq, Repr

inductive Node
  | dynamicFrame (camera : Option Token)
  | fixedFrame (width height : ℤ) (camera : Option Token)
  | root (node : Option Token)
  | horizontalSplit (bottom top : Option Token)
  | verticalSplit (left right : Option Token)
  deriving DecidableEq, Repr

structure Camera (V Q : Type*) where
  projection3d : Option Token
  projection2d : Option Token
  rotation : Q
  translation : V
  deriving DecidableEq, Repr

inductive Projection (R : Type*)
  | orthographic (zNear zFar : R)
  | perspective (fovy zNear zFar : R)
  deriving DecidableEq, Repr

/-- `add_child` -/
def Node.addChild (child : Token) (slot : ℤ) : Node → Except Misuse Node
  | .dynamicFrame _ | .fixedFrame _ _ _ => .error .unreachable
  | .root _ => .ok (.root (some child))
  | .horizontalSplit bottom top =>
    if slot = 0 then .ok (.horizontalSplit (some child) top)
    else if slot = 1 then .ok (.horizontalSplit bottom (some child))
    else .error .unreachable
  | .verticalSplit left right =>
    if slot = 0 then .ok (.verticalSplit (some child) right)
    else if slot = 1 then .ok (.verticalSplit left (some child))
    else .error .unreachable

/-- `bind_camera_to_frame` and `unbind_camera_from_frame` -/
def Node.setCamera (camera : Option Token) : Node → Except Misuse Node
  | .dynamicFrame _ => .ok (.dynamicFrame camera)
  | .fixedFrame width height _ => .ok (.fixedFrame width height camera)
  | _ => .error .unreachable

/-- The camera of a frame. -/
def Node.camera : Node → Option (Option Token)
  | .dynamicFrame camera | .fixedFrame _ _ camera => some camera
  | _ => none

/-- The slots for nodes below a node. -/
def Node.parts : Node → List (Option Token)
  | .dynamicFrame _ | .fixedFrame _ _ _ => []
  | .root node => [node]
  | .horizontalSplit bottom top => [bottom, top]
  | .verticalSplit left right => [left, right]

/-- The slots with their areas, in the order in which they are visited. -/
def Node.children (a : Area) : Node → List (Option Token × Area)
  | .dynamicFrame _ | .fixedFrame _ _ _ => []
  | .root node => [(node, a)]
  | .horizontalSplit bottom top =>
    let half := a.height.tdiv 2
    [(bottom, ⟨a.x, a.y + half, a.width, a.height - half⟩), (top, ⟨a.x, a.y, a.width, half⟩)]
  | .verticalSplit left right =>
    let half := a.width.tdiv 2
    [(left, ⟨a.x, a.y, half, a.height⟩), (right, ⟨a.x + half, a.y, a.width - half, a.height⟩)]

/-! ## Building viewports -/

/-- Join the lists that a function gives, up to its first error. -/
def joinAll {α β ε : Type*} (f : α → Except ε (List β)) : List α → Except ε (List β)
  | [] => .ok []
  | x :: xs =>
    match f x with
    | .error e => .error e
    | .ok ys =>
      match joinAll f xs with
      | .error e => .error e
      | .ok zs => .ok (ys ++ zs)

/-- `BuildViewports`, on a stack with room for so many nested calls. -/
def buildFrom (nodes : DenseTable Token Node) (emptyBucket : Bool) :
    ℕ → Option Token × Area → Except Misuse (List (Token × Viewport))
  | 0, _ => .error .stackOverflow
  | _ + 1, (none, _) => if emptyBucket then .error .emptyBucket else .ok []
  | depth + 1, (some asset, area) =>
    match nodes.find asset with
    | none => .ok []
    | some node =>
      match node.camera with
      | some camera => .ok [(asset, ⟨area, camera⟩)]
      | none => joinAll (buildFrom nodes emptyBucket depth) (node.children area)

/-! ## Displays -/

variable {V Q R D : Type*}

/-- What the renderer keeps for a display: the area, and the matrices of the camera. -/
structure Display (D : Type*) where
  area : Area
  matrices3d : D
  matrices2d : D
  deriving DecidableEq, Repr

inductive DisplayMessage (D : Type*)
  | addDisplay (asset : Token) (display : Display D)
  | removeDisplay (asset : Token)
  | updateDisplayCamera3d (asset : Token) (matrices : D)
  | updateDisplayCamera2d (asset : Token) (matrices : D)
  deriving DecidableEq, Repr

/-- `poll_queues`, and whether there is a bucket and memory for a new display. -/
def DisplayMessage.apply (places : Bool) (displays : DenseTable Token (Display D)) :
    DisplayMessage D → DenseTable Token (Display D)
  | .addDisplay asset display =>
    if places then (displays.emplace asset display).getD displays else displays
  | .removeDisplay asset => displays.erase (fun _ => ()) asset
  | .updateDisplayCamera3d asset matrices =>
    displays.modify asset fun x => { x with matrices3d := matrices }
  | .updateDisplayCamera2d asset matrices =>
    displays.modify asset fun x => { x with matrices2d := matrices }

/-! ## Messages of the viewer -/

structure State (V Q R D : Type*) where
  nodes : DenseTable Token Node
  cameras : DenseTable Token (Camera V Q)
  projections : DenseTable Token (Projection R)
  viewports : List (Token × Viewport)
  dimension : ℤ × ℤ
  rebuildViewports : Bool
  rebuildMatrices : Bool
  /-- the displays of the renderer -/
  displays : DenseTable Token (Display D)
  /-- the display messages that the last step posted -/
  posted : List (DisplayMessage D)

/-- The constructor; the root frame is the token of `root_frame`. -/
def State.initial (rootFrame : Token) : State V Q R D where
  nodes := ⟨[(rootFrame, .root none)], List.nodup_singleton _⟩
  cameras := ∅
  projections := ∅
  viewports := []
  dimension := (0, 0)
  rebuildViewports := false
  rebuildMatrices := false
  displays := ∅
  posted := []

inductive Message (V Q R : Type*)
  | addCamera (entity : Token) (camera : Camera V Q)
  | addFrameDynamic (asset parent : Token) (slot : ℤ)
  | addFrameFixed (asset parent : Token) (slot : ℤ) (width height : ℤ)
  | addProjectionOrthographic (asset : Token) (zNear zFar : R)
  | addProjectionPerspective (asset : Token) (fovy zNear zFar : R)
  | addSplitHorizontal (asset parent : Token) (slot : ℤ)
  | addSplitVertical (asset parent : Token) (slot : ℤ)
  | bind (frame camera : Token)
  | removeCamera (entity : Token)
  | removeFrame (asset : Token)
  | removeProjection (asset : Token)
  | removeSplit (asset : Token)
  | unbind (frame : Token)
  | updateCameraProjection (entity : Token) (projection3d projection2d : Option Token)
  | updateCameraRotate (entity : Token) (q : Q)
  | updateCameraRotation (entity : Token) (q : Q)
  | updateCameraTranslate (entity : Token) (v : V)
  | updateCameraTranslation (entity : Token) (v : V)
  deriving DecidableEq, Repr

/-- `emplace`, if there is a bucket and a slot. -/
def emplaceOr {W : Type*} (places : Bool) (t : DenseTable Token W) (key : Token) (w : W) :
    DenseTable Token W :=
  if places then (t.emplace key w).getD t else t

/-- The handlers that add a node below another. -/
def addNode (places : Bool) (s : State V Q R D) (asset parent : Token) (slot : ℤ) (node : Node) :
    Except Misuse (State V Q R D) :=
  match s.nodes.find parent with
  | none => .ok s
  | some x =>
    match x.addChild asset slot with
    | .error e => .error e
    | .ok x => .ok { s with nodes := emplaceOr places (s.nodes.modify parent fun _ => x) asset node }

/-- `MessageBind` and `MessageUnbind` -/
def setCamera (s : State V Q R D) (frame : Token) (camera : Option Token) :
    Except Misuse (State V Q R D) :=
  match s.nodes.find frame with
  | none => .ok s
  | some x =>
    match x.setCamera camera with
    | .error e => .error e
    | .ok x => .ok { s with nodes := s.nodes.modify frame (fun _ => x), rebuildViewports := true }

/-- `find` and `erase` -/
def eraseKey {W : Type*} (t : DenseTable Token W) (key : Token) : DenseTable Token W :=
  t.erase (fun _ => ()) key

/-- The handlers that update a camera. -/
def updateCamera (s : State V Q R D) (entity : Token) (f : Camera V Q → Camera V Q) :
    State V Q R D :=
  match s.cameras.find entity with
  | none => s
  | some _ => { s with cameras := s.cameras.modify entity f, rebuildMatrices := true }

variable [Add V] [Mul Q]

/-- `ProcessMessage`, and whether there is room for what is new. -/
def processMessage (s : State V Q R D) (places : Bool) :
    Message V Q R → Except Misuse (State V Q R D)
  | .addCamera entity camera =>
    -- the entry that is erased leaves room for the new one
    .ok { s with
      cameras := emplaceOr (places || (s.cameras.find entity).isSome)
        (eraseKey s.cameras entity) entity camera }
  | .addFrameDynamic asset parent slot => addNode places s asset parent slot (.dynamicFrame none)
  | .addFrameFixed asset parent slot width height =>
    addNode places s asset parent slot (.fixedFrame width height none)
  | .addProjectionOrthographic asset zNear zFar =>
    .ok { s with
      projections := emplaceOr places s.projections asset (.orthographic zNear zFar) }
  | .addProjectionPerspective asset fovy zNear zFar =>
    .ok { s with
      projections :=
        emplaceOr places (eraseKey s.projections asset) asset (.perspective fovy zNear zFar) }
  | .addSplitHorizontal asset parent slot =>
    addNode places s asset parent slot (.horizontalSplit none none)
  | .addSplitVertical asset parent slot =>
    addNode places s asset parent slot (.verticalSplit none none)
  | .bind frame camera => setCamera s frame (some camera)
  | .removeCamera entity => .ok { s with cameras := eraseKey s.cameras entity }
  | .removeFrame asset | .removeSplit asset => .ok { s with nodes := eraseKey s.nodes asset }
  | .removeProjection asset => .ok { s with projections := eraseKey s.projections asset }
  | .unbind frame => setCamera s frame none
  | .updateCameraProjection entity projection3d projection2d =>
    .ok (updateCamera s entity fun x =>
      { x with projection3d := projection3d, projection2d := projection2d })
  | .updateCameraRotate entity q =>
    .ok (updateCamera s entity fun x => { x with rotation := x.rotation * q })
  | .updateCameraRotation entity q =>
    .ok (updateCamera s entity fun x => { x with rotation := q })
  | .updateCameraTranslate entity v =>
    .ok (updateCamera s entity fun x => { x with translation := x.translation + v })
  | .updateCameraTranslation entity v =>
    .ok (updateCamera s entity fun x => { x with translation := v })

/-! ## Updates -/

/-- What an update meets: whether one of the buckets that are tried for the default token is
empty, how many calls fit on the stack, and whether the renderer has room for displays. -/
structure Surroundings where
  emptyNode : Bool
  emptyCamera : Bool
  depth : ℕ
  places : Bool
  deriving DecidableEq, Repr

/-- The matrices of a camera for an area, in three and in two dimensions. -/
structure Extract (V Q R D : Type*) where
  matrices3d : DenseTable Token (Projection R) → Camera V Q → Area → D
  matrices2d : DenseTable Token (Projection R) → Camera V Q → Area → D

variable (rootFrame : Token) (extract : Extract V Q R D)

section Update

omit [Add V] [Mul Q]

def findCamera (emptyBucket : Bool) (cameras : DenseTable Token (Camera V Q)) :
    Option Token → Except Misuse (Option (Camera V Q))
  | none => if emptyBucket then .error .emptyBucket else .ok none
  | some camera => .ok (cameras.find camera)

def addMessages (emptyBucket : Bool) (s : State V Q R D) (v : Token × Viewport) :
    Except Misuse (List (DisplayMessage D)) :=
  match findCamera emptyBucket s.cameras v.2.camera with
  | .error e => .error e
  | .ok none => .ok []
  | .ok (some camera) => .ok [.addDisplay v.1 ⟨v.2.area,
      extract.matrices3d s.projections camera v.2.area,
      extract.matrices2d s.projections camera v.2.area⟩]

def updateMessages (emptyBucket : Bool) (s : State V Q R D) (v : Token × Viewport) :
    Except Misuse (List (DisplayMessage D)) :=
  match findCamera emptyBucket s.cameras v.2.camera with
  | .error e => .error e
  | .ok none => .ok []
  | .ok (some camera) => .ok
    [.updateDisplayCamera3d v.1 (extract.matrices3d s.projections camera v.2.area),
      .updateDisplayCamera2d v.1 (extract.matrices2d s.projections camera v.2.area)]

def removeMessages (viewports : List (Token × Viewport)) : List (DisplayMessage D) :=
  viewports.map fun v => .removeDisplay v.1

/-- The notification of a resize. -/
def State.resized (s : State V Q R D) : Option (ℤ × ℤ) → State V Q R D
  | none => s
  | some dimension => { s with dimension := dimension, rebuildViewports := true }

/-- The area of the root frame. -/
def State.whole (s : State V Q R D) : Area := ⟨0, 0, s.dimension.1, s.dimension.2⟩

/-- The renderer handles messages one after another. -/
def handleAll (places : Bool) (displays : DenseTable Token (Display D))
    (messages : List (DisplayMessage D)) : DenseTable Token (Display D) :=
  messages.foldl (fun displays message => message.apply places displays) displays

/-- The messages are posted, and the renderer handles them. -/
def State.post (s : State V Q R D) (places : Bool) (messages : List (DisplayMessage D)) :
    State V Q R D :=
  { s with
    rebuildViewports := false
    rebuildMatrices := false
    displays := handleAll places s.displays messages
    posted := messages }

/-- `update` after the loop over the messages. -/
def finishUpdate (s : State V Q R D) (around : Surroundings) : Except Misuse (State V Q R D) :=
  if s.rebuildViewports then
    match buildFrom s.nodes around.emptyNode around.depth (some rootFrame, s.whole) with
    | .error e => .error e
    | .ok viewports =>
      match joinAll (addMessages extract around.emptyCamera s) viewports with
      | .error e => .error e
      | .ok messages =>
        .ok (State.post { s with viewports := viewports } around.places
          (removeMessages s.viewports ++ messages))
  else if s.rebuildMatrices then
    match joinAll (updateMessages extract around.emptyCamera s) s.viewports with
    | .error e => .error e
    | .ok messages => .ok (s.post around.places messages)
  else .ok (s.post around.places [])

end Update

/-- A message that an update takes from the queue, or the rest of the update. -/
inductive Action (V Q R : Type*)
  | process (message : Message V Q R) (places : Bool)
  | finish (resize : Option (ℤ × ℤ)) (around : Surroundings)
  deriving DecidableEq, Repr

def step (s : State V Q R D) : Action V Q R → Except Misuse (State V Q R D)
  | .process message places => processMessage { s with posted := [] } places message
  | .finish resize around => finishUpdate rootFrame extract (s.resized resize) around

/-! ## What agreement means -/

omit [Add V] [Mul Q]

/-- A frame is reached from a slot, with its viewport. -/
inductive Shows (nodes : DenseTable Token Node) : Option Token × Area → Token → Viewport → Prop
  | frame {asset : Token} {area : Area} {node : Node} {camera : Option Token}
      (found : nodes.find asset = some node) (framed : node.camera = some camera) :
      Shows nodes (some asset, area) asset ⟨area, camera⟩
  | inside {asset frame : Token} {area : Area} {node : Node} {part : Option Token × Area}
      {viewport : Viewport} (found : nodes.find asset = some node)
      (child : part ∈ node.children area) (reached : Shows nodes part frame viewport) :
      Shows nodes (some asset, area) frame viewport

/-- A display is added only if it is not there, and removed or updated only if it is. -/
def DisplayMessage.Fits (displays : DenseTable Token (Display D)) : DisplayMessage D → Prop
  | .addDisplay asset _ => displays.find asset = none
  | .removeDisplay asset | .updateDisplayCamera3d asset _ | .updateDisplayCamera2d asset _ =>
    displays.find asset ≠ none

def Balanced (places : Bool) : DenseTable Token (Display D) → List (DisplayMessage D) → Prop
  | _, [] => True
  | displays, message :: messages =>
    message.Fits displays ∧ Balanced places (message.apply places displays) messages

/-- The displays are the frames that are reached from the root frame and bound to a camera. -/
def Exact (s : State V Q R D) : Prop :=
  ∀ frame display, s.displays.find frame = some display ↔
    ∃ viewport c camera, Shows s.nodes (some rootFrame, s.whole) frame viewport ∧
      viewport.camera = some c ∧ s.cameras.find c = some camera ∧
      display = ⟨viewport.area, extract.matrices3d s.projections camera viewport.area,
        extract.matrices2d s.projections camera viewport.area⟩

/-- What a step has to do. -/
def Agrees (s : State V Q R D) : Action V Q R → State V Q R D → Prop
  | .process _ _, t => t.posted = [] ∧ t.displays = s.displays
  | .finish resize around, t => Balanced around.places s.displays t.posted ∧
    ((s.resized resize).rebuildViewports = true → Exact rootFrame extract t)

/-! ## When it is met -/

/-- No default token is looked up below a slot, and the nodes are no deeper than the stack. -/
def Regular (nodes : DenseTable Token Node) (emptyBucket : Bool) : ℕ → Option Token → Prop
  | 0, _ => False
  | _ + 1, none => emptyBucket = false
  | depth + 1, some asset => ∀ node, nodes.find asset = some node →
    ∀ part ∈ node.parts, Regular nodes emptyBucket depth part

/-- The frames below a slot. -/
def framesBelow (nodes : DenseTable Token Node) : ℕ → Option Token → List Token
  | 0, _ | _, none => []
  | depth + 1, some asset =>
    match nodes.find asset with
    | none => []
    | some node =>
      if node.camera.isSome then [asset] else node.parts.flatMap (framesBelow nodes depth)

/-- Every frame is reached once, and is bound to a camera that is there. -/
structure Rebuildable (s : State V Q R D) (around : Surroundings) : Prop where
  regular : Regular s.nodes around.emptyNode around.depth (some rootFrame)
  once : (framesBelow s.nodes around.depth (some rootFrame)).Nodup
  bound : ∀ frame viewport, Shows s.nodes (some rootFrame, s.whole) frame viewport →
    ∃ c camera, viewport.camera = some c ∧ s.cameras.find c = some camera
  places : framesBelow s.nodes around.depth (some rootFrame) ≠ [] → around.places = true

def Node.HasSlot (slot : ℤ) : Node → Prop
  | .dynamicFrame _ | .fixedFrame _ _ _ => False
  | .root _ => True
  | .horizontalSplit _ _ | .verticalSplit _ _ => slot = 0 ∨ slot = 1

def Meets (s : State V Q R D) : Action V Q R → Prop
  | .process (.addFrameDynamic _ parent slot) _ | .process (.addFrameFixed _ parent slot _ _) _
  | .process (.addSplitHorizontal _ parent slot) _ | .process (.addSplitVertical _ parent slot) _ =>
    ∀ node, s.nodes.find parent = some node → node.HasSlot slot
  | .process (.bind frame _) _ | .process (.unbind frame) _ =>
    ∀ node, s.nodes.find frame = some node → node.camera ≠ none
  | .process _ _ => True
  | .finish resize around =>
    (s.resized resize).rebuildViewports = true → Rebuildable rootFrame (s.resized resize) around

/-! ## The viewports below a slot -/

theorem map_fst_children (area : Area) (node : Node) :
    (node.children area).map Prod.fst = node.parts := by
  cases node <;> rfl

theorem children_of_camera {node : Node} {camera : Option Token} (h : node.camera = some camera)
    (area : Area) : node.children area = [] := by
  cases node <;> first | rfl | cases h

theorem joinAll_eq_flatMap {α β ε : Type*} {f : α → Except ε (List β)} {g : α → List β}
    {xs : List α} (h : ∀ x ∈ xs, f x = .ok (g x)) : joinAll f xs = .ok (xs.flatMap g) := by
  induction xs with
  | nil => rfl
  | cons x xs ih =>
    obtain ⟨hx, hxs⟩ := List.forall_mem_cons.mp h
    simp only [joinAll, hx, ih hxs, List.flatMap_cons]

def viewportsBelow (nodes : DenseTable Token Node) :
    ℕ → Option Token × Area → List (Token × Viewport)
  | 0, _ => []
  | _ + 1, (none, _) => []
  | depth + 1, (some asset, area) =>
    match nodes.find asset with
    | none => []
    | some node =>
      match node.camera with
      | some camera => [(asset, ⟨area, camera⟩)]
      | none => (node.children area).flatMap (viewportsBelow nodes depth)

section Viewports

variable {nodes : DenseTable Token Node} {emptyBucket : Bool} {depth : ℕ}

theorem Regular.child {asset : Token} {node : Node} {area : Area} {part : Option Token × Area}
    (h : Regular nodes emptyBucket (depth + 1) (some asset)) (hfind : nodes.find asset = some node)
    (hpart : part ∈ node.children area) : Regular nodes emptyBucket depth part.1 :=
  h node hfind part.1 (map_fst_children area node ▸ List.mem_map_of_mem hpart)

theorem buildFrom_eq {part : Option Token × Area} (h : Regular nodes emptyBucket depth part.1) :
    buildFrom nodes emptyBucket depth part = .ok (viewportsBelow nodes depth part) := by
  induction depth generalizing part with
  | zero => exact h.elim
  | succ depth ih =>
    obtain ⟨asset | asset, area⟩ := part
    · have hbucket : emptyBucket = false := h
      simp [buildFrom, viewportsBelow, hbucket]
    · simp only [buildFrom, viewportsBelow]
      cases hfind : nodes.find asset with
      | none => rfl
      | some node =>
        dsimp only
        cases hcamera : node.camera with
        | some camera => rfl
        | none => exact joinAll_eq_flatMap fun part hpart => ih (h.child hfind hpart)

theorem map_fst_viewportsBelow (part : Option Token × Area) :
    (viewportsBelow nodes depth part).map Prod.fst = framesBelow nodes depth part.1 := by
  induction depth generalizing part with
  | zero => rfl
  | succ depth ih =>
    obtain ⟨asset | asset, area⟩ := part
    · rfl
    · simp only [viewportsBelow, framesBelow]
      cases hfind : nodes.find asset with
      | none => rfl
      | some node =>
        dsimp only
        cases hcamera : node.camera with
        | some camera => simp
        | none =>
          simp only [Option.isSome_none, Bool.false_eq_true, if_false, List.map_flatMap, ih]
          rw [← map_fst_children area node, List.flatMap_map]

theorem mem_viewportsBelow {part : Option Token × Area} {frame : Token} {viewport : Viewport}
    (h : Regular nodes emptyBucket depth part.1) :
    (frame, viewport) ∈ viewportsBelow nodes depth part ↔ Shows nodes part frame viewport := by
  induction depth generalizing part with
  | zero => exact h.elim
  | succ depth ih =>
    obtain ⟨asset | asset, area⟩ := part
    · exact iff_of_false List.not_mem_nil fun h => nomatch h
    · simp only [viewportsBelow]
      cases hfind : nodes.find asset with
      | none =>
        refine iff_of_false List.not_mem_nil fun hshows => ?_
        cases hshows with
        | frame found _ => cases hfind.symm.trans found
        | inside found _ _ => cases hfind.symm.trans found
      | some node =>
        dsimp only
        cases hcamera : node.camera with
        | some camera =>
          constructor
          · intro hmem
            cases List.mem_singleton.mp hmem
            exact .frame hfind hcamera
          · intro hshows
            cases hshows with
            | frame found framed =>
              cases hfind.symm.trans found
              cases hcamera.symm.trans framed
              exact List.mem_singleton_self _
            | inside found child _ =>
              cases hfind.symm.trans found
              rw [children_of_camera hcamera] at child
              cases child
        | none =>
          rw [List.mem_flatMap]
          constructor
          · rintro ⟨part, hpart, hmem⟩
            exact .inside hfind hpart ((ih (h.child hfind hpart)).mp hmem)
          · intro hshows
            cases hshows with
            | frame found framed =>
              cases hfind.symm.trans found
              cases hcamera.symm.trans framed
            | inside found child reached =>
              cases hfind.symm.trans found
              exact ⟨_, child, (ih (h.child hfind child)).mpr reached⟩

end Viewports

/-! ## Display messages -/

section Displays

variable {displays : DenseTable Token (Display D)} {places : Bool}
  {viewports : List (Token × Viewport)}

theorem balanced_append {messages messages' : List (DisplayMessage D)}
    (h : Balanced places displays messages)
    (h' : Balanced places (handleAll places displays messages) messages') :
    Balanced places displays (messages ++ messages') := by
  induction messages generalizing displays with
  | nil => exact h'
  | cons message messages ih => exact ⟨h.1, ih h.2 h'⟩

theorem handleAll_append (messages messages' : List (DisplayMessage D)) :
    handleAll places displays (messages ++ messages') =
      handleAll places (handleAll places displays messages) messages' :=
  List.foldl_append

theorem balanced_removeMessages (places : Bool) (hnodup : (viewports.map Prod.fst).Nodup)
    (h : ∀ v ∈ viewports, displays.find v.1 ≠ none) :
    Balanced places displays (removeMessages viewports) ∧
      ∀ e, (handleAll places displays (removeMessages viewports)).find e =
        if e ∈ viewports.map Prod.fst then none else displays.find e := by
  induction viewports generalizing displays with
  | nil => exact ⟨trivial, fun e => rfl⟩
  | cons v viewports ih =>
    obtain ⟨hv, hviewports⟩ := List.forall_mem_cons.mp h
    rw [List.map_cons, List.nodup_cons] at hnodup
    have hleft : ∀ v' ∈ viewports, (displays.erase (fun _ => ()) v.1).find v'.1 ≠ none := by
      intro v' hv'
      rw [DenseTable.find_erase, if_neg]
      · exact hviewports v' hv'
      · exact fun heq => hnodup.1 (heq ▸ List.mem_map_of_mem hv')
    obtain ⟨hbalanced, hfind⟩ := ih hnodup.2 hleft
    refine ⟨⟨hv, hbalanced⟩, fun e => ?_⟩
    refine (hfind e).trans ?_
    simp only [List.map_cons, List.mem_cons, DenseTable.find_erase]
    by_cases he : e = v.1 <;> by_cases hmem : e ∈ viewports.map Prod.fst <;> simp [he, hmem]

/-- The messages that add displays for viewports. -/
def addAll (display : Token × Viewport → Option (Display D)) (viewports : List (Token × Viewport)) :
    List (DisplayMessage D) :=
  viewports.flatMap fun v => (display v).toList.map (.addDisplay v.1)

theorem balanced_addAll (display : Token × Viewport → Option (Display D))
    (hnodup : (viewports.map Prod.fst).Nodup) (hplaces : viewports ≠ [] → places = true)
    (h : ∀ v ∈ viewports, displays.find v.1 = none) :
    Balanced places displays (addAll display viewports) ∧
      ∀ e d, (handleAll places displays (addAll display viewports)).find e = some d ↔
        (∃ v ∈ viewports, v.1 = e ∧ display v = some d) ∨ displays.find e = some d := by
  induction viewports generalizing displays with
  | nil => exact ⟨trivial, fun e d => by simp [addAll, handleAll]⟩
  | cons v viewports ih =>
    obtain ⟨hv, hviewports⟩ := List.forall_mem_cons.mp h
    rw [List.map_cons, List.nodup_cons] at hnodup
    have hplaced := hplaces (List.cons_ne_nil _ _)
    cases hdisplay : display v with
    | none =>
      obtain ⟨hbalanced, hfind⟩ := ih hnodup.2 (fun _ => hplaced) hviewports
      have hall : addAll display (v :: viewports) = addAll display viewports := by
        simp [addAll, hdisplay]
      rw [hall]
      refine ⟨hbalanced, fun e d => (hfind e d).trans ?_⟩
      simp [hdisplay]
    | some d₀ =>
      obtain ⟨displays', hemplace⟩ := DenseTable.emplace_of_find_eq_none (v := d₀) hv
      have hfound := DenseTable.find_emplace hemplace
      have happly : (DisplayMessage.addDisplay v.1 d₀).apply places displays = displays' := by
        simp [DisplayMessage.apply, hplaced, hemplace]
      have hfresh : ∀ v' ∈ viewports, displays'.find v'.1 = none := by
        intro v' hv'
        rw [hfound, if_neg]
        · exact hviewports v' hv'
        · exact fun heq => hnodup.1 (heq ▸ List.mem_map_of_mem hv')
      obtain ⟨hbalanced, hfind⟩ := ih hnodup.2 (fun _ => hplaced) hfresh
      have hall : addAll display (v :: viewports) =
          .addDisplay v.1 d₀ :: addAll display viewports := by
        simp [addAll, hdisplay]
      rw [hall]
      refine ⟨⟨hv, happly ▸ hbalanced⟩, fun e d => ?_⟩
      change (handleAll places ((DisplayMessage.addDisplay v.1 d₀).apply places displays)
        (addAll display viewports)).find e = some d ↔ _
      rw [happly, hfind, hfound]
      by_cases he : e = v.1
      · subst he
        simp [hdisplay, hv, or_comm]
      · simp [he, Ne.symm he]

/-- The messages that update displays which are there. -/
theorem balanced_updates (places : Bool) {messages : List (DisplayMessage D)}
    (h : ∀ message ∈ messages, ∃ e matrices, (message = .updateDisplayCamera3d e matrices ∨
      message = .updateDisplayCamera2d e matrices) ∧ displays.find e ≠ none) :
    Balanced places displays messages ∧
      ∀ e, (handleAll places displays messages).find e ≠ none ↔ displays.find e ≠ none := by
  induction messages generalizing displays with
  | nil => exact ⟨trivial, fun e => Iff.rfl⟩
  | cons message messages ih =>
    obtain ⟨⟨e, matrices, hmessage, he⟩, hmessages⟩ := List.forall_mem_cons.mp h
    have happly : ∀ e', (message.apply places displays).find e' ≠ none ↔
        displays.find e' ≠ none := by
      intro e'
      obtain rfl | rfl := hmessage <;>
      · rw [DisplayMessage.apply, DenseTable.find_modify]
        split_ifs with heq
        · rw [heq, Ne, Option.map_eq_none_iff]
        · exact Iff.rfl
    have hrest : ∀ message' ∈ messages, ∃ e matrices,
        (message' = .updateDisplayCamera3d e matrices ∨
          message' = .updateDisplayCamera2d e matrices) ∧
        (message.apply places displays).find e ≠ none := by
      intro message' hmem
      obtain ⟨e, matrices, hupdate, hfind⟩ := hmessages message' hmem
      exact ⟨e, matrices, hupdate, (happly e).mpr hfind⟩
    obtain ⟨hbalanced, hfind⟩ := ih hrest
    refine ⟨⟨?_, hbalanced⟩, fun e => (hfind e).trans (happly e)⟩
    obtain rfl | rfl := hmessage <;> exact he

end Displays

/-! ## Steps -/

/-- Viewports as they are built: each frame once, with a camera, and displayed. -/
structure Sound (s : State V Q R D) : Prop where
  once : (s.viewports.map Prod.fst).Nodup
  bound : ∀ v ∈ s.viewports, v.2.camera ≠ none
  present : ∀ e, s.displays.find e ≠ none ↔ e ∈ s.viewports.map Prod.fst

theorem Sound.initial : Sound (State.initial rootFrame : State V Q R D) where
  once := List.nodup_nil
  bound _ h := nomatch h
  present _ := iff_of_false (fun h => h rfl) List.not_mem_nil

variable {s t : State V Q R D} {rootFrame extract}

theorem addNode_ok {asset parent : Token} {slot : ℤ} {node : Node} (places : Bool)
    (h : ∀ node, s.nodes.find parent = some node → node.HasSlot slot) :
    ∃ nodes, addNode places s asset parent slot node = .ok { s with nodes := nodes } := by
  rw [addNode]
  split
  · exact ⟨s.nodes, rfl⟩
  next x hfind =>
    have hslot := h x hfind
    have hadded : ∃ y, x.addChild asset slot = .ok y := by
      cases x with
      | dynamicFrame _ | fixedFrame _ _ _ => exact hslot.elim
      | root node => exact ⟨_, rfl⟩
      | horizontalSplit _ _ | verticalSplit _ _ =>
        obtain rfl | rfl : slot = 0 ∨ slot = 1 := hslot <;> exact ⟨_, rfl⟩
    obtain ⟨y, hy⟩ := hadded
    rw [hy]
    exact ⟨_, rfl⟩

theorem setCamera_ok {frame : Token} {camera : Option Token}
    (h : ∀ node, s.nodes.find frame = some node → node.camera ≠ none) :
    ∃ nodes rebuild, setCamera s frame camera =
      .ok { s with nodes := nodes, rebuildViewports := rebuild } := by
  rw [setCamera]
  split
  · exact ⟨s.nodes, s.rebuildViewports, rfl⟩
  next x hfind =>
    have hset : ∃ y, x.setCamera camera = .ok y := by
      cases x with
      | dynamicFrame _ | fixedFrame _ _ _ => exact ⟨_, rfl⟩
      | root _ | horizontalSplit _ _ | verticalSplit _ _ => exact absurd rfl (h _ hfind)
    obtain ⟨y, hy⟩ := hset
    rw [hy]
    exact ⟨_, _, rfl⟩

theorem updateCamera_eq (entity : Token) (f : Camera V Q → Camera V Q) :
    ∃ cameras rebuild, updateCamera s entity f =
      { s with cameras := cameras, rebuildMatrices := rebuild } := by
  rw [updateCamera]
  split
  · exact ⟨s.cameras, s.rebuildMatrices, rfl⟩
  · exact ⟨_, _, rfl⟩

/-- A message leaves the viewports and the displays as they are. -/
theorem processMessage_ok [Add V] [Mul Q] (rootFrame : Token) {message : Message V Q R}
    {places : Bool} (h : Meets rootFrame s (.process message places)) :
    ∃ t, processMessage s places message = .ok t ∧ t.viewports = s.viewports ∧
      t.displays = s.displays ∧ t.posted = s.posted := by
  have hcamera : ∀ entity (f : Camera V Q → Camera V Q),
      (updateCamera s entity f).viewports = s.viewports ∧
        (updateCamera s entity f).displays = s.displays ∧
        (updateCamera s entity f).posted = s.posted := by
    intro entity f
    obtain ⟨cameras, rebuild, hupdate⟩ := updateCamera_eq (s := s) entity f
    rw [hupdate]
    exact ⟨rfl, rfl, rfl⟩
  cases message with
  | addFrameDynamic | addFrameFixed | addSplitHorizontal | addSplitVertical =>
    obtain ⟨nodes, hnodes⟩ := addNode_ok places h
    exact ⟨_, hnodes, rfl, rfl, rfl⟩
  | bind | unbind =>
    obtain ⟨nodes, rebuild, hnodes⟩ := setCamera_ok h
    exact ⟨_, hnodes, rfl, rfl, rfl⟩
  | updateCameraProjection | updateCameraRotate | updateCameraRotation | updateCameraTranslate
  | updateCameraTranslation => exact ⟨_, rfl, hcamera _ _⟩
  | _ => exact ⟨_, rfl, rfl, rfl, rfl⟩

/-- The display of a viewport, if there is its camera. -/
def displayOf (extract : Extract V Q R D) (s : State V Q R D) (v : Token × Viewport) :
    Option (Display D) :=
  (v.2.camera.bind s.cameras.find).map fun camera =>
    ⟨v.2.area, extract.matrices3d s.projections camera v.2.area,
      extract.matrices2d s.projections camera v.2.area⟩

theorem displayOf_eq {v : Token × Viewport} {c : Token} {camera : Camera V Q}
    (hc : v.2.camera = some c) (hcamera : s.cameras.find c = some camera) :
    displayOf extract s v = some ⟨v.2.area, extract.matrices3d s.projections camera v.2.area,
      extract.matrices2d s.projections camera v.2.area⟩ := by
  rw [displayOf, hc, Option.bind_some, hcamera, Option.map_some]

theorem addMessages_eq {emptyBucket : Bool} {v : Token × Viewport} (h : v.2.camera ≠ none) :
    addMessages extract emptyBucket s v =
      .ok ((displayOf extract s v).toList.map (.addDisplay v.1)) := by
  obtain ⟨c, hc⟩ := Option.ne_none_iff_exists'.mp h
  rw [addMessages, displayOf, hc, findCamera]
  cases hfind : s.cameras.find c <;> simp [hfind]

theorem updateMessages_ok {emptyBucket : Bool} {v : Token × Viewport} (h : v.2.camera ≠ none) :
    ∃ messages, updateMessages extract emptyBucket s v = .ok messages ∧
      ∀ message ∈ messages, ∃ matrices, message = .updateDisplayCamera3d v.1 matrices ∨
        message = .updateDisplayCamera2d v.1 matrices := by
  obtain ⟨c, hc⟩ := Option.ne_none_iff_exists'.mp h
  rw [updateMessages, hc, findCamera]
  cases s.cameras.find c with
  | none => exact ⟨[], rfl, fun _ h => nomatch h⟩
  | some camera =>
    refine ⟨_, rfl, fun message hmessage => ?_⟩
    obtain rfl | hmessage := List.mem_cons.mp hmessage
    · exact ⟨_, .inl rfl⟩
    · exact ⟨_, .inr (List.mem_singleton.mp hmessage)⟩

/-- A rebuild removes what is displayed, and adds the frames with their cameras. -/
theorem Sound.rebuild (h : Sound s) (extract : Extract V Q R D) {around : Surroundings} (hrebuild : s.rebuildViewports = true)
    (hmeets : Rebuildable rootFrame s around) :
    ∃ t, finishUpdate rootFrame extract s around = .ok t ∧
      Balanced around.places s.displays t.posted ∧ Exact rootFrame extract t ∧ Sound t := by
  set viewports := viewportsBelow s.nodes around.depth (some rootFrame, s.whole) with hviewports
  have hbuilt : buildFrom s.nodes around.emptyNode around.depth (some rootFrame, s.whole) =
      .ok viewports := buildFrom_eq hmeets.regular
  have hshows : ∀ frame viewport, (frame, viewport) ∈ viewports ↔
      Shows s.nodes (some rootFrame, s.whole) frame viewport :=
    fun frame viewport => mem_viewportsBelow hmeets.regular
  have hkeys : viewports.map Prod.fst = framesBelow s.nodes around.depth (some rootFrame) :=
    map_fst_viewportsBelow _
  have hbound : ∀ v ∈ viewports, ∃ c camera, v.2.camera = some c ∧
      s.cameras.find c = some camera := fun v hv => hmeets.bound v.1 v.2 ((hshows _ _).mp hv)
  have hcamera : ∀ v ∈ viewports, v.2.camera ≠ none := fun v hv => by
    obtain ⟨c, -, hc, -⟩ := hbound v hv
    rw [hc]
    exact Option.some_ne_none c
  have hadds : joinAll (addMessages extract around.emptyCamera s) viewports =
      .ok (addAll (displayOf extract s) viewports) :=
    joinAll_eq_flatMap fun v hv => addMessages_eq (hcamera v hv)
  have honce : (viewports.map Prod.fst).Nodup := hkeys ▸ hmeets.once
  have hplaces : viewports ≠ [] → around.places = true := fun hne =>
    hmeets.places fun hnil => hne (List.map_eq_nil_iff.mp (hkeys.trans hnil))
  obtain ⟨hremoved, hcleared⟩ := balanced_removeMessages around.places h.once
    fun v hv => (h.present v.1).mpr (List.mem_map_of_mem hv)
  -- nothing is displayed when the first display is added
  have hnone : ∀ e, (handleAll around.places s.displays (removeMessages s.viewports)).find e =
      none := by
    intro e
    rw [hcleared]
    split_ifs with he
    · rfl
    · exact not_not.mp (mt (h.present e).mp he)
  obtain ⟨hadded, hfind⟩ := balanced_addAll (displayOf extract s) honce hplaces
    fun v _ => hnone v.1
  have hdisplayed : ∀ e d, (handleAll around.places s.displays (removeMessages s.viewports ++
      addAll (displayOf extract s) viewports)).find e = some d ↔
      ∃ v ∈ viewports, v.1 = e ∧ displayOf extract s v = some d := by
    intro e d
    rw [handleAll_append, hfind, hnone]
    simp
  refine ⟨_, by rw [finishUpdate, if_pos hrebuild, hbuilt]; simp only [hadds]; rfl,
    balanced_append hremoved hadded, fun e d => ?_, honce, hcamera, fun e => ?_⟩
  · refine (hdisplayed e d).trans ?_
    constructor
    · rintro ⟨v, hv, rfl, hd⟩
      obtain ⟨c, camera, hc, hcamera⟩ := hbound v hv
      rw [displayOf_eq hc hcamera] at hd
      exact ⟨v.2, c, camera, (hshows _ _).mp hv, hc, hcamera, (Option.some.inj hd).symm⟩
    · rintro ⟨viewport, c, camera, hreached, hc, hcamera, rfl⟩
      exact ⟨(e, viewport), (hshows _ _).mpr hreached, rfl, displayOf_eq hc hcamera⟩
  · rw [Option.ne_none_iff_exists', List.mem_map]
    constructor
    · rintro ⟨d, hd⟩
      obtain ⟨v, hv, rfl, -⟩ := (hdisplayed e d).mp hd
      exact ⟨v, hv, rfl⟩
    · rintro ⟨v, hv, rfl⟩
      obtain ⟨c, camera, hc, hcamera⟩ := hbound v hv
      exact ⟨_, (hdisplayed v.1 _).mpr ⟨v, hv, rfl, displayOf_eq hc hcamera⟩⟩

/-- An update of the matrices leaves the same displays there. -/
theorem Sound.update (h : Sound s) (rootFrame : Token) (extract : Extract V Q R D)
    (around : Surroundings) (hrebuild : ¬ s.rebuildViewports = true) :
    ∃ t, finishUpdate rootFrame extract s around = .ok t ∧
      Balanced around.places s.displays t.posted ∧ Sound t := by
  rw [finishUpdate, if_neg hrebuild]
  split_ifs with hmatrices
  · obtain ⟨messages, hmessages, hupdates⟩ : ∃ messages,
        joinAll (updateMessages extract around.emptyCamera s) s.viewports = .ok messages ∧
        ∀ message ∈ messages, ∃ e matrices, (message = .updateDisplayCamera3d e matrices ∨
          message = .updateDisplayCamera2d e matrices) ∧ s.displays.find e ≠ none := by
      choose! messages hmessages hupdates using fun v (hv : v ∈ s.viewports) =>
        @updateMessages_ok V Q R D extract s around.emptyCamera v (h.bound v hv)
      refine ⟨_, joinAll_eq_flatMap hmessages, fun message hmessage => ?_⟩
      obtain ⟨v, hv, hmessage⟩ := List.mem_flatMap.mp hmessage
      obtain ⟨matrices, hupdate⟩ := hupdates v hv message hmessage
      exact ⟨v.1, matrices, hupdate, (h.present v.1).mpr (List.mem_map_of_mem hv)⟩
    rw [hmessages]
    obtain ⟨hbalanced, hfind⟩ := balanced_updates around.places hupdates
    exact ⟨_, rfl, hbalanced, h.once, h.bound, fun e => (hfind e).trans (h.present e)⟩
  · exact ⟨_, rfl, trivial, h.once, h.bound, h.present⟩

theorem Sound.resized (h : Sound s) (resize : Option (ℤ × ℤ)) :
    Sound (s.resized resize) ∧ (s.resized resize).displays = s.displays := by
  cases resize <;> exact ⟨⟨h.once, h.bound, h.present⟩, rfl⟩

theorem Sound.step [Add V] [Mul Q] (h : Sound s) {a : Action V Q R} (hmeets : Meets rootFrame s a) :
    ∃ t, step rootFrame extract s a = .ok t ∧ Agrees rootFrame extract s a t ∧ Sound t := by
  cases a with
  | process message places =>
    have hcleared : Meets rootFrame { s with posted := [] } (.process message places) := by
      cases message <;> exact hmeets
    obtain ⟨t, ht, hviewports, hdisplays, hposted⟩ := processMessage_ok rootFrame hcleared
    refine ⟨t, ht, ⟨hposted, hdisplays⟩, ?_⟩
    constructor
    · rw [hviewports]
      exact h.once
    · rw [hviewports]
      exact h.bound
    · rw [hviewports, hdisplays]
      exact h.present
  | finish resize around =>
    obtain ⟨hresized, hdisplays⟩ := h.resized resize
    by_cases hrebuild : (s.resized resize).rebuildViewports = true
    · obtain ⟨t, ht, hbalanced, hexact, hsound⟩ :=
        hresized.rebuild extract hrebuild (hmeets hrebuild)
      exact ⟨t, ht, ⟨hdisplays ▸ hbalanced, fun _ => hexact⟩, hsound⟩
    · obtain ⟨t, ht, hbalanced, hsound⟩ :=
        hresized.update rootFrame extract around hrebuild
      exact ⟨t, ht, ⟨hdisplays ▸ hbalanced, fun h => absurd h hrebuild⟩, hsound⟩

/-- Matrices that tell the rotation of a camera. -/
def sampleExtract : Extract ℕ ℕ ℕ ℕ where
  matrices3d _ camera _ := camera.rotation
  matrices2d _ camera _ := camera.rotation

def sampleAround : Surroundings := ⟨true, true, 3, true⟩

end Fimbulwinter.Viewer
