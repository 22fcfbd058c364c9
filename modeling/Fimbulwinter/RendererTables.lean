import Fimbulwinter.DenseTable
import Fimbulwinter.TransitionRuns
import Mathlib.Data.Finset.Basic
import Mathlib.Data.PNat.Basic

/-! # Tables of the renderer

The tables of `engine/graphics/renderer_opengl_30.cpp` that `poll_queues` keeps for resources
and entities. Assets and entities are nonzero tokens, and a pointer into a static storage is
a slot. An assertion that fails is reported, and the handler goes on with its value. Displays,
materials and what the resources hold are left out. -/
namespace Fimbulwinter.Renderer

abbrev Token := ℕ+

/-- A place in a static storage. -/
abbrev Slot := ℕ

/-- `debug_unreachable` is reached. -/
inductive Misuse
  | unreachable
  deriving DecidableEq, Repr

inductive Resource
  | mesh (slot : Slot)
  | colorClass
  | shader
  | shaderClass
  | texture
  deriving DecidableEq, Repr

def Resource.meshSlot : Resource → Option Slot
  | .mesh slot => some slot
  | _ => none

/-- `object_modelview` and `object_modelview_vertices` -/
inductive Object (M : Type*)
  | modelview (slot : Slot) (modelview : M)
  | vertices (slot : Slot) (modelview : M)
  deriving DecidableEq, Repr

/-- `update_modelview` -/
def Object.updateModelview {M : Type*} (matrix : M) : Object M → Object M
  | .modelview slot _ => .modelview slot matrix
  | .vertices slot _ => .vertices slot matrix

def Object.modelviewSlot {M : Type*} : Object M → Option Slot
  | .modelview slot _ => some slot
  | .vertices _ _ => none

/-- `Character` and `MeshObject`; only the pointer of the latter may be null. -/
inductive Component
  | character (mesh object : Slot)
  | meshObject (object : Option Slot) (mesh : Slot) (material : Token)
  deriving DecidableEq, Repr

def Component.mesh : Component → Slot
  | .character mesh _ => mesh
  | .meshObject _ mesh _ => mesh

/-- `Color4ub` -/
structure Color where
  r : ℕ
  g : ℕ
  b : ℕ
  a : ℕ
  deriving DecidableEq, Repr

/-- `selectable_character_t` -/
structure SelectableCharacter where
  mesh : Slot
  object : Slot
  selectableColor : Color
  deriving DecidableEq, Repr

/-- `updateable_character_t` -/
structure UpdateableCharacter (M : Type*) where
  mesh : Slot
  object : Slot
  matrixPallet : List M
  deriving DecidableEq, Repr

/-- `highlighted_t` and `selected_t` -/
inductive Mark
  | highlighted
  | selected
  deriving DecidableEq, Repr

structure State (M : Type*) where
  resources : DenseTable Token Resource
  /-- the free slots of the meshes, the one taken next first -/
  freeMeshes : List Slot
  objects : DenseTable Token (Object M)
  /-- the free slots of `object_modelview`, the one taken next first -/
  freeModelviews : List Slot
  components : DenseTable Token Component
  selectableComponents : DenseTable Token SelectableCharacter
  updateableComponents : DenseTable Token (UpdateableCharacter M)
  selectedComponents : DenseTable Token (Finset Mark)

/-- Whether there is a bucket and memory for an entry that is new, should a message place it in
the table. -/
structure Places where
  resource : Bool
  object : Bool
  component : Bool
  selectable : Bool
  selected : Bool
  deriving DecidableEq, Repr

inductive Message (M : Type*)
  | registerCharacter (asset : Token)
  | registerMaterial (asset : Token) (shader : Option Token) (diffuse : Bool)
  | registerMesh (asset : Token)
  /-- a shader compiles and links, or it does not -/
  | registerShader (asset : Token) (compiles : Bool)
  | registerTexture (asset : Token)
  | unregister (asset : Token)
  | addMeshObject (entity : Token) (matrix : M) (mesh material : Token)
  | makeObstruction (entity : Token)
  | makeSelectable (entity : Token)
  | makeTransparent (entity : Token)
  | makeClearSelection
  | makeDehighlighted (entity : Token)
  | makeDeselect (entity : Token)
  | makeHighlighted (entity : Token)
  | makeSelect (entity : Token)
  | remove (entity : Token)
  | updateCharacterSkinning (entity : Token) (matrixPallet : List M)
  | updateModelviewMatrix (entity : Token) (matrix : M)
  deriving DecidableEq, Repr

variable {M V : Type*}

def State.initial : State M :=
  ⟨∅, List.range 100, ∅, List.range 600, ∅, ∅, ∅, ∅⟩

/-! ## Operations on the tables -/

/-- `emplace`, which fails for a key that is there and when there is no place. -/
def tryEmplace (places : Bool) (t : DenseTable Token V) (key : Token) (v : V) :
    Option (DenseTable Token V) :=
  if places then t.emplace key v else none

/-- `find` and `erase` -/
def eraseKey (t : DenseTable Token V) (key : Token) : DenseTable Token V :=
  t.erase (fun _ => ()) key

def emplaceMesh (places : Bool) (s : State M) (asset : Token) : State M :=
  match s.freeMeshes with
  | [] => s
  | slot :: free =>
    match tryEmplace places s.resources asset (.mesh slot) with
    | none => s
    | some resources => { s with resources := resources, freeMeshes := free }

/-- `emplace` of a resource that is not a mesh. -/
def emplaceResource (places : Bool) (s : State M) (asset : Token) (resource : Resource) : State M :=
  { s with resources := (tryEmplace places s.resources asset resource).getD s.resources }

/-- `create_shader` -/
def createShader (places : Bool) (s : State M) (asset : Token) (compiles : Bool) : State M :=
  match tryEmplace places s.resources asset .shader with
  | none => s
  | some resources =>
    { s with resources := if compiles then resources else eraseKey resources asset }

def unregister (s : State M) (asset : Token) : State M :=
  match s.resources.find asset with
  | none => s
  | some resource =>
    { s with
      resources := eraseKey s.resources asset
      freeMeshes := resource.meshSlot.toList ++ s.freeMeshes }

def eraseObject (s : State M) (entity : Token) : State M :=
  match s.objects.find entity with
  | none => s
  | some object =>
    { s with
      objects := eraseKey s.objects entity
      freeModelviews := object.modelviewSlot.toList ++ s.freeModelviews }

/-- `objects.emplace<object_modelview>` -/
def emplaceObject (places : Bool) (s : State M) (entity : Token) (matrix : M) :
    State M × Option Slot :=
  match s.freeModelviews with
  | [] => (s, none)
  | slot :: free =>
    match tryEmplace places s.objects entity (.modelview slot matrix) with
    | none => (s, none)
    | some objects => ({ s with objects := objects, freeModelviews := free }, some slot)

/-- The component of an entity is erased, and a new one takes its place. -/
def replaceComponent (places : Bool) (components : DenseTable Token Component) (entity : Token)
    (component : Component) : DenseTable Token Component :=
  -- the entry that is erased leaves room for the new one
  (tryEmplace (places || (components.find entity).isSome) (eraseKey components entity) entity
    component).getD (eraseKey components entity)

def addMeshObject (p : Places) (s : State M) (entity : Token) (matrix : M) (mesh material : Token) :
    State M :=
  -- the entry that is erased leaves a bucket for the new one
  match emplaceObject (p.object || (s.objects.find entity).isSome) (eraseObject s entity) entity
    matrix with
  | (s, object) =>
    match s.resources.find mesh with
    | some (.mesh slot) =>
      { s with components :=
          replaceComponent p.component s.components entity (.meshObject object slot material) }
    | _ => s

/-- `add_selectable_color` -/
def addSelectableColor (places : Bool) (s : State M) (entity : Token) (color : Color) :
    Component → Except Misuse (State M)
  | .character mesh object => .ok { s with
      selectableComponents := (tryEmplace places s.selectableComponents entity
        ⟨mesh, object, color⟩).getD s.selectableComponents }
  | .meshObject _ _ _ => .error .unreachable

/-- `MessageMakeObstruction` and `MessageMakeSelectable` -/
def makeColored (places : Bool) (s : State M) (entity : Token) (color : Color) :
    Except Misuse (State M) :=
  match s.selectableComponents.find entity with
  | some _ => .ok { s with
      selectableComponents := s.selectableComponents.modify entity fun x =>
        { x with selectableColor := color } }
  | none =>
    match s.components.find entity with
    | none => .ok s
    | some component => addSelectableColor places s entity color component

def obstructionColor : Color := ⟨0, 0, 0, 0⟩

def selectableColor (entity : Token) : Color :=
  ⟨entity % 256, entity / 2 ^ 8 % 256, entity / 2 ^ 16 % 256, entity / 2 ^ 24 % 256⟩

/-- `emplace` in the multi collection; a mark that is there is refused. -/
def emplaceMark (places : Bool) (t : DenseTable Token (Finset Mark)) (entity : Token) (mark : Mark) :
    DenseTable Token (Finset Mark) :=
  match t.find entity with
  | some _ => if places then t.modify entity (insert mark) else t
  | none => (tryEmplace places t entity {mark}).getD t

/-- `contains` and `erase` in the multi collection; a key without marks is dropped. -/
def eraseMark (t : DenseTable Token (Finset Mark)) (entity : Token) (mark : Mark) :
    DenseTable Token (Finset Mark) :=
  match t.find entity with
  | none => t
  | some marks =>
    if mark ∉ marks then t
    else if marks.erase mark = ∅ then eraseKey t entity
    else t.modify entity (Finset.erase · mark)

def remove (s : State M) (entity : Token) : State M :=
  match s.components.find entity with
  | none => s
  | some _ =>
    eraseObject { s with
      selectableComponents := eraseKey s.selectableComponents entity
      updateableComponents := eraseKey s.updateableComponents entity
      components := eraseKey s.components entity } entity

/-- `ProcessMessage` -/
def processMessage (s : State M) : Message M × Places → Except Misuse (State M)
  | (.registerCharacter asset, p) | (.registerMesh asset, p) => .ok (emplaceMesh p.resource s asset)
  | (.registerMaterial asset shader diffuse, p) =>
    match shader with
    | none => .ok s
    | some _ =>
      .ok (emplaceResource p.resource s asset (if diffuse then .colorClass else .shaderClass))
  | (.registerShader asset compiles, p) => .ok (createShader p.resource s asset compiles)
  | (.registerTexture asset, p) => .ok (emplaceResource p.resource s asset .texture)
  | (.unregister asset, _) => .ok (unregister s asset)
  | (.addMeshObject entity matrix mesh material, p) =>
    .ok (addMeshObject p s entity matrix mesh material)
  | (.makeObstruction entity, p) => makeColored p.selectable s entity obstructionColor
  | (.makeSelectable entity, p) => makeColored p.selectable s entity (selectableColor entity)
  | (.makeTransparent entity, _) =>
    .ok { s with selectableComponents := eraseKey s.selectableComponents entity }
  | (.makeClearSelection, _) => .ok s
  | (.makeDehighlighted entity, _) =>
    .ok { s with selectedComponents := eraseMark s.selectedComponents entity .highlighted }
  | (.makeDeselect entity, _) =>
    .ok { s with selectedComponents := eraseMark s.selectedComponents entity .selected }
  | (.makeHighlighted entity, p) => .ok { s with
      selectedComponents := emplaceMark p.selected s.selectedComponents entity .highlighted }
  | (.makeSelect entity, p) => .ok { s with
      selectedComponents := emplaceMark p.selected s.selectedComponents entity .selected }
  | (.remove entity, _) => .ok (remove s entity)
  | (.updateCharacterSkinning entity matrixPallet, _) => .ok { s with
      updateableComponents := s.updateableComponents.modify entity fun x =>
        { x with matrixPallet := matrixPallet } }
  | (.updateModelviewMatrix entity matrix, _) =>
    .ok { s with objects := s.objects.modify entity (Object.updateModelview matrix) }

/-! ## Consistent tables -/

/-- The object pointer of a component points to the object. -/
def Component.PointsTo (component : Component) (object : Option (Object M)) : Prop :=
  match component with
  | .character _ slot => ∃ matrix, object = some (.vertices slot matrix)
  | .meshObject slot _ _ => ∃ slot' matrix, slot = some slot' ∧ object = some (.modelview slot' matrix)

/-- The tables refer to each other consistently. -/
structure Consistent (s : State M) : Prop where
  selectable : ∀ e, s.selectableComponents.find e ≠ none → s.components.find e ≠ none
  updateable : ∀ e, s.updateableComponents.find e ≠ none → s.components.find e ≠ none
  selected : ∀ e, s.selectedComponents.find e ≠ none → s.components.find e ≠ none
  object : ∀ e c, s.components.find e = some c → c.PointsTo (s.objects.find e)
  mesh : ∀ e c, s.components.find e = some c →
    ∃ asset, s.resources.find asset = some (.mesh c.mesh)

/-- When a message keeps the tables consistent. -/
def Meets (s : State M) : Message M × Places → Prop
  | (.unregister asset, _) => ∀ slot, s.resources.find asset = some (.mesh slot) →
      ∀ e c, s.components.find e = some c → c.mesh ≠ slot
  | (.addMeshObject entity _ mesh _, p) =>
    (∃ slot, s.resources.find mesh = some (.mesh slot)) →
      p.component = true ∨ s.components.find entity ≠ none →
      s.objects.find entity ≠ none ∨ p.object = true ∧ s.freeModelviews ≠ []
  | (.makeObstruction entity, _) | (.makeSelectable entity, _) =>
    ∀ object mesh material, s.components.find entity = some (.meshObject object mesh material) →
      s.selectableComponents.find entity ≠ none
  | (.makeHighlighted entity, p) | (.makeSelect entity, p) =>
    p.selected = true → s.components.find entity ≠ none
  | (.remove entity, _) => s.components.find entity ≠ none → s.selectedComponents.find entity = none
  | _ => True

variable {s t : State M}

section Tables

variable {table : DenseTable Token V} {k k' : Token} {v w : V} {p : Bool}

theorem find_eraseKey (table : DenseTable Token V) (k k' : Token) :
    (eraseKey table k).find k' = if k' = k then none else table.find k' :=
  table.find_erase _ k k'

theorem tryEmplace_eq_some {table' : DenseTable Token V} :
    tryEmplace p table k v = some table' ↔
      p = true ∧ table.emplace k v = some table' := by
  rw [tryEmplace]
  split_ifs with h
  · exact (and_iff_right h).symm
  · exact iff_of_false (fun h => nomatch h) fun h' => h h'.1

theorem tryEmplace_of_find_eq_none (hplaces : p = true) (h : table.find k = none) :
    ∃ table', tryEmplace p table k v = some table' := by
  obtain ⟨table', htable⟩ := DenseTable.emplace_of_find_eq_none (v := v) h
  exact ⟨table', tryEmplace_eq_some.mpr ⟨hplaces, htable⟩⟩

/-- Entries are not changed by an emplace. -/
theorem find_getD_tryEmplace (h : table.find k' = some w) :
    ((tryEmplace p table k v).getD table).find k' = some w := by
  cases hplaced : tryEmplace p table k v with
  | none => exact h
  | some table' =>
    have hemplace := (tryEmplace_eq_some.mp hplaced).2
    rw [Option.getD_some, DenseTable.find_emplace hemplace, if_neg, h]
    rintro rfl
    rw [DenseTable.find_of_emplace hemplace] at h
    cases h

/-- What is found after an emplace was there, or is the new entry. -/
theorem of_find_getD_tryEmplace
    (h : ((tryEmplace p table k v).getD table).find k' = some w) :
    table.find k' = some w ∨ p = true ∧ k' = k ∧ w = v := by
  cases hplaced : tryEmplace p table k v with
  | none =>
    rw [hplaced] at h
    exact .inl h
  | some table' =>
    obtain ⟨hplaces, hemplace⟩ := tryEmplace_eq_some.mp hplaced
    rw [hplaced, Option.getD_some, DenseTable.find_emplace hemplace] at h
    split_ifs at h with heq
    · exact .inr ⟨hplaces, heq, (Option.some.inj h).symm⟩
    · exact .inl h

theorem find_ne_none_of_eraseKey (h : (eraseKey table k).find k' ≠ none) :
    k' ≠ k ∧ table.find k' ≠ none := by
  rw [find_eraseKey] at h
  split_ifs at h with heq
  · exact absurd rfl h
  · exact ⟨heq, h⟩

theorem find_modify_ne_none {f : V → V} :
    (table.modify k f).find k' ≠ none ↔ table.find k' ≠ none := by
  rw [DenseTable.find_modify]
  split_ifs with heq
  · rw [heq, Ne, Option.map_eq_none_iff]
  · exact Iff.rfl

end Tables

/-! ## The slots of the meshes -/

def meshSlots (resources : DenseTable Token Resource) : List Slot :=
  resources.rows.filterMap fun r => r.2.meshSlot

section MeshSlots

variable {resources resources' : DenseTable Token Resource} {asset asset' : Token}
  {resource : Resource} {slot : Slot}

theorem meshSlots_emplace (h : resources.emplace asset resource = some resources') :
    meshSlots resources' = meshSlots resources ++ resource.meshSlot.toList := by
  rw [meshSlots, DenseTable.rows_emplace h, List.filterMap_append]
  cases resource <;> rfl

theorem meshSlots_eraseKey (h : resources.find asset = some resource) :
    (resource.meshSlot.toList ++ meshSlots (eraseKey resources asset)).Perm (meshSlots resources) := by
  obtain ⟨l₁, l₂, hrows, hbefore, -⟩ := DenseTable.rows_split h
  have hperm := (DenseTable.erase_perm (fun _ => ()) hrows hbefore).filterMap
    fun r => r.2.meshSlot
  refine (hperm.append_left _).trans ?_
  rw [meshSlots, hrows, List.filterMap_append, List.filterMap_append]
  cases resource with
  | mesh slot =>
    simp only [List.filterMap_cons, Resource.meshSlot, Option.toList_some, List.singleton_append]
    exact List.perm_middle.symm
  | _ => exact .refl _

theorem mem_meshSlots (h : resources.find asset = some (.mesh slot)) : slot ∈ meshSlots resources :=
  List.mem_filterMap.mpr ⟨_, DenseTable.find_eq_some_iff.mp h, rfl⟩

theorem mesh_unique (hnodup : (meshSlots resources).Nodup)
    (h : resources.find asset = some (.mesh slot)) (h' : resources.find asset' = some (.mesh slot)) :
    asset' = asset := by
  by_contra hne
  have hleft : (eraseKey resources asset).find asset' = some (.mesh slot) := by
    rw [find_eraseKey, if_neg hne, h']
  have := (meshSlots_eraseKey h).nodup_iff.mpr hnodup
  exact (List.nodup_cons.mp this).1 (mem_meshSlots hleft)

end MeshSlots

/-- Consistent tables, as messages build them: nothing adds a character, and no two meshes share
a slot. -/
structure Sound (s : State M) : Prop extends Consistent s where
  meshObject : ∀ e c, s.components.find e = some c → ∃ o m material, c = .meshObject o m material
  modelview : ∀ e o, s.objects.find e = some o → ∃ slot matrix, o = .modelview slot matrix
  slots : (s.freeMeshes ++ meshSlots s.resources).Nodup

theorem Sound.initial : Sound (State.initial : State M) where
  selectable _ h := absurd rfl h
  updateable _ h := absurd rfl h
  selected _ h := absurd rfl h
  object _ _ h := nomatch h
  mesh _ _ h := nomatch h
  meshObject _ _ h := nomatch h
  modelview _ _ h := nomatch h
  slots := by
    rw [State.initial, meshSlots]
    exact (List.append_nil _).symm ▸ List.nodup_range

/-! ### Messages for resources -/

/-- Resources are added, or those go that no component uses. -/
theorem Sound.withResources (h : Sound s) {resources : DenseTable Token Resource}
    {freeMeshes : List Slot}
    (hmesh : ∀ e c asset, s.components.find e = some c →
      s.resources.find asset = some (.mesh c.mesh) → resources.find asset = some (.mesh c.mesh))
    (hslots : (freeMeshes ++ meshSlots resources).Nodup) :
    Sound { s with resources := resources, freeMeshes := freeMeshes } :=
  { h with
    mesh := fun e c hfind => by
      obtain ⟨asset, hasset⟩ := h.mesh e c hfind
      exact ⟨asset, hmesh e c asset hfind hasset⟩
    slots := hslots }

theorem Sound.emplaceMesh (h : Sound s) (places : Bool) (asset : Token) :
    Sound (emplaceMesh places s asset) := by
  rw [Renderer.emplaceMesh]
  split
  · exact h
  next slot free hfree =>
    split
    · exact h
    next resources hplaced =>
      refine h.withResources (fun e c asset' hfind hasset => ?_) ?_
      · have hkept := find_getD_tryEmplace (k := asset) (v := .mesh slot) (p := places) hasset
        rwa [hplaced, Option.getD_some] at hkept
      · have hslots := h.slots
        rw [hfree] at hslots
        rw [meshSlots_emplace (tryEmplace_eq_some.mp hplaced).2, ← List.append_assoc]
        exact (List.perm_append_singleton slot _).nodup_iff.mpr hslots

theorem Sound.emplaceResource (h : Sound s) (places : Bool) (asset : Token) {r : Resource}
    (hresource : r.meshSlot = none) : Sound (emplaceResource places s asset r) := by
  refine h.withResources (fun e c asset' hfind hasset => find_getD_tryEmplace hasset) ?_
  cases hplaced : tryEmplace places s.resources asset r with
  | none => exact h.slots
  | some resources =>
    rw [Option.getD_some, meshSlots_emplace (tryEmplace_eq_some.mp hplaced).2, hresource]
    exact (List.append_nil _).symm ▸ h.slots

theorem Sound.unregister (h : Sound s) {a : Token} {p : Places}
    (hmeets : Meets s (.unregister a, p)) : Sound (unregister s a) := by
  rw [Renderer.unregister]
  split
  · exact h
  next resource hresource =>
    refine h.withResources (fun e c asset' hfind hasset => ?_) ?_
    · rw [find_eraseKey, if_neg, hasset]
      rintro rfl
      exact hmeets _ hasset e c hfind rfl
    · have hperm := (meshSlots_eraseKey hresource).append_left s.freeMeshes
      refine List.Perm.nodup_iff ?_ |>.mpr h.slots
      refine .trans ?_ hperm
      rw [← List.append_assoc]
      exact List.perm_append_comm.append_right _

theorem Sound.createShader (h : Sound s) (places : Bool) (asset : Token) (compiles : Bool) :
    Sound (createShader places s asset compiles) := by
  rw [Renderer.createShader]
  split
  · exact h
  next resources hplaced =>
    have hemplaced := h.emplaceResource places asset (r := .shader) rfl
    rw [Renderer.emplaceResource, hplaced, Option.getD_some] at hemplaced
    cases compiles with
    | true => exact hemplaced
    | false =>
      have hshader : resources.find asset = some .shader := by
        rw [DenseTable.find_emplace (tryEmplace_eq_some.mp hplaced).2, if_pos rfl]
      have herased := hemplaced.unregister (a := asset) (p := ⟨true, true, true, true, true⟩)
        fun slot hslot => nomatch hshader.symm.trans hslot
      simpa only [Renderer.unregister, hshader, Resource.meshSlot, Option.toList_none,
        List.nil_append, Bool.false_eq_true, if_false] using herased

/-- A mesh that a component points to may not be unregistered. -/
theorem meets_unregister (h : Sound s) {asset : Token} {p : Places}
    (ht : Consistent (unregister s asset)) : Meets s (.unregister asset, p) := by
  intro slot hslot e c hfind heq
  rw [Renderer.unregister, hslot] at ht
  obtain ⟨asset', hasset⟩ := ht.mesh e c hfind
  dsimp only at hasset
  rw [find_eraseKey] at hasset
  split_ifs at hasset with hne
  rw [heq] at hasset
  exact hne (mesh_unique (List.nodup_append.mp h.slots).2.1 hslot hasset)

/-! ### Messages for selections -/

/-- The selections change, and name entities with components. -/
theorem Sound.withSelections (h : Sound s) {selectable : DenseTable Token SelectableCharacter}
    {updateable : DenseTable Token (UpdateableCharacter M)}
    {selected : DenseTable Token (Finset Mark)}
    (hselectable : ∀ e, selectable.find e ≠ none → s.components.find e ≠ none)
    (hupdateable : ∀ e, updateable.find e ≠ none → s.components.find e ≠ none)
    (hselected : ∀ e, selected.find e ≠ none → s.components.find e ≠ none) :
    Sound { s with
      selectableComponents := selectable
      updateableComponents := updateable
      selectedComponents := selected } :=
  { h with selectable := hselectable, updateable := hupdateable, selected := hselected }

section Marks

variable {marks : DenseTable Token (Finset Mark)} {entity e : Token} {mark : Mark} {p : Bool}

theorem of_find_emplaceMark (h : (emplaceMark p marks entity mark).find e ≠ none) :
    marks.find e ≠ none ∨ p = true ∧ e = entity := by
  rw [emplaceMark] at h
  split at h
  · split_ifs at h
    · exact .inl (find_modify_ne_none.mp h)
    · exact .inl h
  · obtain ⟨w, hw⟩ := Option.ne_none_iff_exists'.mp h
    obtain hfind | ⟨hp, heq, -⟩ := of_find_getD_tryEmplace hw
    · exact .inl (Option.ne_none_iff_exists'.mpr ⟨w, hfind⟩)
    · exact .inr ⟨hp, heq⟩

theorem find_emplaceMark (hp : p = true) : (emplaceMark p marks entity mark).find entity ≠ none := by
  rw [emplaceMark]
  split
  next old hfind =>
    rw [if_pos hp, find_modify_ne_none, hfind]
    exact Option.some_ne_none old
  next hfind =>
    obtain ⟨placed, hplaced⟩ := tryEmplace_of_find_eq_none (v := {mark}) hp hfind
    rw [hplaced, Option.getD_some, DenseTable.find_emplace (tryEmplace_eq_some.mp hplaced).2,
      if_pos rfl]
    exact Option.some_ne_none _

theorem of_find_eraseMark (h : (eraseMark marks entity mark).find e ≠ none) :
    marks.find e ≠ none := by
  rw [eraseMark] at h
  split at h
  · exact h
  · split_ifs at h
    · exact (find_ne_none_of_eraseKey h).2
    · exact find_modify_ne_none.mp h
    · exact h

end Marks

theorem Sound.emplaceMark (h : Sound s) {p : Bool} {entity : Token} (mark : Mark)
    (hmeets : p = true → s.components.find entity ≠ none) :
    Sound { s with selectedComponents := emplaceMark p s.selectedComponents entity mark } := by
  refine h.withSelections h.selectable h.updateable fun e he => ?_
  obtain hfind | ⟨hp, rfl⟩ := of_find_emplaceMark he
  · exact h.selected e hfind
  · exact hmeets hp

theorem Sound.eraseMark (h : Sound s) (entity : Token) (mark : Mark) :
    Sound { s with selectedComponents := eraseMark s.selectedComponents entity mark } :=
  h.withSelections h.selectable h.updateable fun e he => h.selected e (of_find_eraseMark he)

/-- A color goes to an entity that has one already, or to none. -/
theorem Sound.makeColored (h : Sound s) {p : Bool} {entity : Token} {color : Color}
    (hmeets : ∀ object mesh material,
      s.components.find entity = some (.meshObject object mesh material) →
        s.selectableComponents.find entity ≠ none) :
    ∃ t, makeColored p s entity color = .ok t ∧ Sound t := by
  rw [Renderer.makeColored]
  split
  · exact ⟨_, rfl, h.withSelections
      (fun e he => h.selectable e (find_modify_ne_none.mp he)) h.updateable h.selected⟩
  next hselectable =>
    split
    · exact ⟨s, rfl, h⟩
    next component hcomponent =>
      obtain ⟨object, mesh, material, rfl⟩ := h.meshObject entity component hcomponent
      exact absurd hselectable (hmeets object mesh material hcomponent)

theorem meets_makeColored {p : Bool} {entity : Token} {color : Color}
    (ht : makeColored p s entity color = .ok t) (object : Option Slot) (mesh : Slot)
    (material : Token) (hcomponent : s.components.find entity = some (.meshObject object mesh material)) :
    s.selectableComponents.find entity ≠ none := by
  intro hselectable
  rw [Renderer.makeColored, hselectable, hcomponent] at ht
  cases ht

/-! ### Messages for objects -/

/-- Objects are added, or change, where they are. -/
theorem Sound.withObjects (h : Sound s) {objects : DenseTable Token (Object M)}
    {freeModelviews : List Slot}
    (hkept : ∀ e slot matrix, s.objects.find e = some (.modelview slot matrix) →
      ∃ matrix, objects.find e = some (.modelview slot matrix))
    (hmodelview : ∀ e o, objects.find e = some o → ∃ slot matrix, o = .modelview slot matrix) :
    Sound { s with objects := objects, freeModelviews := freeModelviews } :=
  { h with
    object := fun e c hfind => by
      obtain ⟨object, mesh, material, rfl⟩ := h.meshObject e c hfind
      obtain ⟨slot, matrix, rfl, hobject⟩ := h.object e _ hfind
      obtain ⟨matrix', hobject'⟩ := hkept e slot matrix hobject
      exact ⟨slot, matrix', rfl, hobject'⟩
    modelview := hmodelview }

theorem Sound.updateModelview (h : Sound s) (entity : Token) (matrix : M) :
    Sound { s with objects := s.objects.modify entity (Object.updateModelview matrix) } := by
  refine h.withObjects (fun e slot old hfind => ?_) fun e o hfind => ?_
  · rw [DenseTable.find_modify]
    split_ifs with heq
    · rw [← heq, hfind]
      exact ⟨matrix, rfl⟩
    · exact ⟨old, hfind⟩
  · rw [DenseTable.find_modify] at hfind
    split_ifs at hfind
    · obtain ⟨old, hold, rfl⟩ := Option.map_eq_some_iff.mp hfind
      obtain ⟨slot, matrix', rfl⟩ := h.modelview entity old hold
      exact ⟨slot, matrix, rfl⟩
    · exact h.modelview e o hfind

theorem find_eraseObject (s : State M) (entity e : Token) :
    (eraseObject s entity).objects.find e = if e = entity then none else s.objects.find e := by
  rw [eraseObject]
  split
  next hfind =>
    split_ifs with heq
    · rw [heq, hfind]
    · rfl
  · exact find_eraseKey _ _ _

/-- There is room for the object of an entity. -/
def HasRoom (places : Bool) (s : State M) (entity : Token) : Prop :=
  s.objects.find entity ≠ none ∨ places = true ∧ s.freeModelviews ≠ []

/-- An object replaces the one that its entity has, in the same slot, or is placed in a free one. -/
theorem Sound.emplaceObject (h : Sound s) {places : Bool} {entity : Token}
    (hroom : HasRoom places s entity) (matrix : M) : ∃ objects free slot,
    emplaceObject (places || (s.objects.find entity).isSome) (eraseObject s entity) entity matrix =
        ({ s with objects := objects, freeModelviews := free }, some slot) ∧
      objects.find entity = some (.modelview slot matrix) ∧
      Sound { s with objects := objects, freeModelviews := free } := by
  have hfree : ∃ slot free, (eraseObject s entity).freeModelviews = slot :: free ∧
      ∀ o, s.objects.find entity = some o → ∃ matrix, o = .modelview slot matrix := by
    cases hfind : s.objects.find entity with
    | none =>
      obtain hsome | ⟨-, hne⟩ := hroom
      · exact absurd hfind hsome
      · obtain ⟨slot, free, hfree⟩ := List.exists_cons_of_ne_nil hne
        exact ⟨slot, free, by rw [eraseObject, hfind]; exact hfree, fun o ho => nomatch ho⟩
    | some o =>
      obtain ⟨slot, old, rfl⟩ := h.modelview entity o hfind
      refine ⟨slot, s.freeModelviews, by rw [eraseObject, hfind]; rfl, fun o ho => ?_⟩
      obtain rfl := Option.some.inj ho
      exact ⟨old, rfl⟩
  have hplaces : (places || (s.objects.find entity).isSome) = true := by
    obtain hsome | ⟨hplaces, -⟩ := hroom
    · rw [Option.isSome_iff_ne_none.mpr hsome, Bool.or_true]
    · rw [hplaces, Bool.true_or]
  obtain ⟨slot, free, hfree, hslot⟩ := hfree
  obtain ⟨objects, hobjects⟩ := tryEmplace_of_find_eq_none (v := Object.modelview slot matrix) hplaces
    ((find_eraseObject s entity entity).trans (if_pos rfl))
  have hfind := fun e => (DenseTable.find_emplace (tryEmplace_eq_some.mp hobjects).2 e).trans
    (if_congr Iff.rfl rfl (find_eraseObject s entity e))
  refine ⟨objects, free, slot, ?_, (hfind entity).trans (if_pos rfl), ?_⟩
  · rw [Renderer.emplaceObject, hfree]
    simp only [hobjects]
    rw [eraseObject]
    split <;> rfl
  · refine h.withObjects (fun e slot' old hold => ?_) fun e o ho => ?_
    · rw [hfind]
      split_ifs with heq
      · subst heq
        obtain ⟨_, hslot⟩ := hslot _ hold
        cases hslot
        exact ⟨matrix, rfl⟩
      · exact ⟨old, hold⟩
    · rw [hfind] at ho
      split_ifs at ho
      · exact ⟨slot, matrix, (Option.some.inj ho).symm⟩
      · exact h.modelview e o ho

/-- Without room, there is no object, and the tables stay as they are. -/
theorem emplaceObject_full {places : Bool} {entity : Token} (hroom : ¬ HasRoom places s entity)
    (matrix : M) :
    emplaceObject (places || (s.objects.find entity).isSome) (eraseObject s entity) entity matrix =
      (s, none) := by
  rw [HasRoom, not_or, not_not, not_and] at hroom
  obtain ⟨hnone, hplaces⟩ := hroom
  rw [eraseObject, hnone, Option.isSome_none, Bool.or_false, emplaceObject]
  cases hfree : s.freeModelviews with
  | nil => rfl
  | cons slot free =>
    have hfalse : places = false := Bool.eq_false_iff.mpr fun h => hplaces h (by simp [hfree])
    simp [tryEmplace, hfalse]

/-! ### Messages for components -/

theorem find_replaceComponent (p : Bool) (components : DenseTable Token Component) (entity : Token)
    (component : Component) (e : Token) :
    (replaceComponent p components entity component).find e =
      if e = entity then
        if p = true ∨ components.find entity ≠ none then some component else none
      else components.find e := by
  have hnone : (eraseKey components entity).find entity = none :=
    (find_eraseKey _ _ _).trans (if_pos rfl)
  rw [replaceComponent]
  by_cases hplaces : p = true ∨ components.find entity ≠ none
  · have hp : (p || (components.find entity).isSome) = true := by
      rwa [Bool.or_eq_true, Option.isSome_iff_ne_none]
    obtain ⟨placed, hplaced⟩ := tryEmplace_of_find_eq_none (v := component) hp hnone
    rw [hplaced, Option.getD_some, DenseTable.find_emplace (tryEmplace_eq_some.mp hplaced).2,
      if_pos hplaces, find_eraseKey]
    split_ifs <;> rfl
  · have hp : ¬ (p || (components.find entity).isSome) = true := by
      rwa [Bool.or_eq_true, Option.isSome_iff_ne_none]
    rw [tryEmplace, if_neg hp, Option.getD_none, if_neg hplaces, find_eraseKey]

theorem Sound.replaceComponent (h : Sound s) {p : Bool} {entity asset : Token} {mesh : Slot}
    {object : Option Slot} (material : Token)
    (hmesh : s.resources.find asset = some (.mesh mesh))
    (hobject : p = true ∨ s.components.find entity ≠ none →
      ∃ slot matrix, object = some slot ∧ s.objects.find entity = some (.modelview slot matrix)) :
    Sound { s with
      components := replaceComponent p s.components entity (.meshObject object mesh material) } := by
  -- an entity that has a component keeps one
  have hkept : ∀ e, s.components.find e ≠ none → (Renderer.replaceComponent p s.components entity
      (.meshObject object mesh material)).find e ≠ none := by
    intro e he
    rw [find_replaceComponent]
    split_ifs with heq hplaces
    · exact Option.some_ne_none _
    · exact absurd (.inr (heq ▸ he)) hplaces
    · exact he
  -- and a component is the new one, or an old one
  have hcases : ∀ e c, (Renderer.replaceComponent p s.components entity
      (.meshObject object mesh material)).find e = some c →
      (p = true ∨ s.components.find entity ≠ none) ∧ e = entity ∧
        c = .meshObject object mesh material ∨ s.components.find e = some c := by
    intro e c he
    rw [find_replaceComponent] at he
    split_ifs at he with heq hplaces
    · exact .inl ⟨hplaces, heq, (Option.some.inj he).symm⟩
    · exact .inr he
  refine { h with
    selectable := fun e he => hkept e (h.selectable e he)
    updateable := fun e he => hkept e (h.updateable e he)
    selected := fun e he => hkept e (h.selected e he)
    object := fun e c he => ?_
    mesh := fun e c he => ?_
    meshObject := fun e c he => ?_ }
  · obtain ⟨hplaces, rfl, rfl⟩ | he := hcases e c he
    · exact hobject hplaces
    · exact h.object e c he
  · obtain ⟨-, rfl, rfl⟩ | he := hcases e c he
    · exact ⟨asset, hmesh⟩
    · exact h.mesh e c he
  · obtain ⟨-, rfl, rfl⟩ | he := hcases e c he
    · exact ⟨object, mesh, material, rfl⟩
    · exact h.meshObject e c he

theorem Sound.addMeshObject (h : Sound s) {p : Places} {entity mesh material : Token} {matrix : M}
    (hmeets : Meets s (.addMeshObject entity matrix mesh material, p)) :
    Sound (addMeshObject p s entity matrix mesh material) := by
  rw [Renderer.addMeshObject]
  by_cases hroom : HasRoom p.object s entity
  · obtain ⟨objects, free, slot, hplaced, hfind, hsound⟩ := h.emplaceObject hroom matrix
    rw [hplaced]
    dsimp only
    split
    next slot' hmesh => exact hsound.replaceComponent material hmesh fun _ => ⟨slot, matrix, rfl, hfind⟩
    · exact hsound
  · rw [emplaceObject_full hroom]
    dsimp only
    split
    next slot' hmesh =>
      exact h.replaceComponent material hmesh fun hplaces =>
        absurd (hmeets ⟨slot', hmesh⟩ hplaces) hroom
    · exact h

/-- A component is not placed without an object. -/
theorem meets_addMeshObject {p : Places} {entity mesh material : Token} {matrix : M}
    (ht : Consistent (addMeshObject p s entity matrix mesh material)) :
    Meets s (.addMeshObject entity matrix mesh material, p) := by
  rintro ⟨slot, hmesh⟩ hplaces
  by_contra hroom
  rw [Renderer.addMeshObject, emplaceObject_full hroom] at ht
  dsimp only at ht
  rw [hmesh] at ht
  obtain ⟨slot', -, hnull, -⟩ := ht.object entity (.meshObject none slot material)
    ((find_replaceComponent _ _ _ _ _).trans ((if_pos rfl).trans (if_pos hplaces)))
  cases hnull

theorem eraseObject_eq (s : State M) (entity : Token) : ∃ free, eraseObject s entity =
    { s with objects := (eraseObject s entity).objects, freeModelviews := free } := by
  rw [eraseObject]
  split
  · exact ⟨s.freeModelviews, rfl⟩
  · exact ⟨_, rfl⟩

theorem Sound.remove (h : Sound s) {entity : Token} {p : Places}
    (hmeets : Meets s (.remove entity, p)) : Sound (remove s entity) := by
  rw [Renderer.remove]
  split
  · exact h
  next component hcomponent =>
    have hselected := hmeets (by rw [hcomponent]; exact Option.some_ne_none _)
    -- the entries of other entities stay
    have hother : ∀ e, e ≠ entity → s.components.find e ≠ none →
        (eraseKey s.components entity).find e ≠ none := by
      intro e hne he
      rwa [find_eraseKey, if_neg hne]
    have hcases : ∀ e c, (eraseKey s.components entity).find e = some c →
        e ≠ entity ∧ s.components.find e = some c := by
      intro e c he
      rw [find_eraseKey] at he
      split_ifs at he with heq
      exact ⟨heq, he⟩
    obtain ⟨free, hfree⟩ := eraseObject_eq { s with
      selectableComponents := eraseKey s.selectableComponents entity
      updateableComponents := eraseKey s.updateableComponents entity
      components := eraseKey s.components entity } entity
    rw [hfree]
    refine
      { selectable := fun e he => ?_, updateable := fun e he => ?_, selected := fun e he => ?_
        object := fun e c he => ?_, mesh := fun e c he => h.mesh e c (hcases e c he).2
        meshObject := fun e c he => h.meshObject e c (hcases e c he).2
        modelview := fun e o ho => ?_, slots := h.slots }
    · obtain ⟨hne, he⟩ := find_ne_none_of_eraseKey he
      exact hother e hne (h.selectable e he)
    · obtain ⟨hne, he⟩ := find_ne_none_of_eraseKey he
      exact hother e hne (h.updateable e he)
    · refine hother e ?_ (h.selected e he)
      rintro rfl
      exact he hselected
    · obtain ⟨hne, he⟩ := hcases e c he
      dsimp only
      rw [find_eraseObject, if_neg hne]
      exact h.object e c he
    · dsimp only at ho
      rw [find_eraseObject] at ho
      split_ifs at ho
      exact h.modelview e o ho

/-- An entity that is selected may not be removed. -/
theorem meets_remove {entity : Token} {p : Places} (ht : Consistent (remove s entity)) :
    Meets s (.remove entity, p) := by
  intro hcomponent
  by_contra hselected
  obtain ⟨component, hcomponent⟩ := Option.ne_none_iff_exists'.mp hcomponent
  rw [Renderer.remove, hcomponent] at ht
  dsimp only at ht
  obtain ⟨free, hfree⟩ := eraseObject_eq { s with
    selectableComponents := eraseKey s.selectableComponents entity
    updateableComponents := eraseKey s.updateableComponents entity
    components := eraseKey s.components entity } entity
  rw [hfree] at ht
  exact ht.selected entity hselected ((find_eraseKey _ _ _).trans (if_pos rfl))

/-! ## Runs -/

/-- A message that meets its condition keeps the tables consistent. -/
theorem Sound.step (h : Sound s) {a : Message M × Places} (hmeets : Meets s a) :
    ∃ t, processMessage s a = .ok t ∧ Consistent t ∧ Sound t := by
  suffices hsound : ∃ t, processMessage s a = .ok t ∧ Sound t by
    obtain ⟨t, ht, hsound⟩ := hsound
    exact ⟨t, ht, hsound.toConsistent, hsound⟩
  obtain ⟨message, p⟩ := a
  cases message with
  | registerCharacter asset | registerMesh asset =>
    exact ⟨_, rfl, h.emplaceMesh p.resource asset⟩
  | registerMaterial asset shader diffuse =>
    cases shader with
    | none => exact ⟨s, rfl, h⟩
    | some shader => exact ⟨_, rfl, h.emplaceResource p.resource asset (by cases diffuse <;> rfl)⟩
  | registerShader asset compiles => exact ⟨_, rfl, h.createShader p.resource asset compiles⟩
  | registerTexture asset => exact ⟨_, rfl, h.emplaceResource p.resource asset rfl⟩
  | unregister asset => exact ⟨_, rfl, h.unregister hmeets⟩
  | addMeshObject entity matrix mesh material => exact ⟨_, rfl, h.addMeshObject hmeets⟩
  | makeObstruction entity | makeSelectable entity => exact h.makeColored hmeets
  | makeTransparent entity =>
    exact ⟨_, rfl, h.withSelections (fun e he => h.selectable e (find_ne_none_of_eraseKey he).2)
      h.updateable h.selected⟩
  | makeClearSelection => exact ⟨s, rfl, h⟩
  | makeDehighlighted entity => exact ⟨_, rfl, h.eraseMark entity .highlighted⟩
  | makeDeselect entity => exact ⟨_, rfl, h.eraseMark entity .selected⟩
  | makeHighlighted entity => exact ⟨_, rfl, h.emplaceMark .highlighted hmeets⟩
  | makeSelect entity => exact ⟨_, rfl, h.emplaceMark .selected hmeets⟩
  | remove entity => exact ⟨_, rfl, h.remove hmeets⟩
  | updateCharacterSkinning entity matrixPallet =>
    exact ⟨_, rfl, h.withSelections h.selectable
      (fun e he => h.updateable e (find_modify_ne_none.mp he)) h.selected⟩
  | updateModelviewMatrix entity matrix => exact ⟨_, rfl, h.updateModelview entity matrix⟩

/-- A message that keeps the tables consistent meets its condition. -/
theorem Sound.meets (h : Sound s) {a : Message M × Places} (hstep : processMessage s a = .ok t)
    (ht : Consistent t) : Meets s a := by
  obtain ⟨message, p⟩ := a
  cases message with
  | unregister asset =>
    cases hstep
    exact meets_unregister h ht
  | addMeshObject entity matrix mesh material =>
    cases hstep
    exact meets_addMeshObject ht
  | makeObstruction entity | makeSelectable entity => exact meets_makeColored hstep
  | makeHighlighted entity | makeSelect entity =>
    cases hstep
    exact fun hp => ht.selected entity (find_emplaceMark hp)
  | remove entity =>
    cases hstep
    exact meets_remove ht
  | _ => exact trivial

/-- The tables refer to each other consistently after every message, and nothing unreachable is
reached, if and only if every message meets its condition. -/
theorem tables_consistent_iff (messages : List (Message M × Places)) :
    RelatesAll processMessage (fun _ _ t => Consistent t) State.initial messages ↔
      MeetsAll processMessage Meets State.initial messages :=
  relatesAll_iff_meetsAll Sound Sound.initial (fun h hmeets => h.step hmeets)
    (fun h hstep ht => h.meets hstep ht) messages

/-- An entity that the renderer does not know is selected. -/
theorem tables_not_consistent_select : ¬ ∀ messages : List (Message ℕ × Places),
    RelatesAll processMessage (fun _ _ t => Consistent t) State.initial messages := by
  intro h
  obtain ⟨t, ht, hconsistent, -⟩ := h [(.makeSelect 1, ⟨true, true, true, true, true⟩)]
  cases ht
  exact hconsistent.selected 1 (find_emplaceMark rfl) rfl

end Fimbulwinter.Renderer
