import Fimbulwinter.Collection
import Fimbulwinter.LookupOverflow
import Fimbulwinter.TransitionRuns
import Mathlib.Data.PNat.Basic

/-! # `engine::animation::mixer`

Components are played back by entries of a collection whose keys are drawn from a counter.
Vectors, quaternions and matrices are left out, and so are the names of armatures and
objects; frames are counted. -/
namespace Fimbulwinter.Mixer

abbrev Token := ℕ+
abbrev Name := List Char

/-- `Mixer` -/
abbrev Handle := ℕ

/-- `invalid_mixer` -/
def invalidMixer : Handle := 2 ^ 32 - 1

/-- Behaviour that the program does not define, or where it traps. -/
inductive Misuse
  /-- `debug_unreachable` is reached. -/
  | unreachable
  /-- The action of a playback without one is read. -/
  | noAction
  /-- A frame is taken modulo a length of zero. -/
  | divisionByZero
  /-- The end of the collection is called. -/
  | endCalled
  /-- Placing a key does not come to an end. -/
  | outOfFuel
  deriving DecidableEq, Repr

/-! ## Playbacks -/

structure ArmatureAction where
  name : Name
  length : ℕ
  /-- `!positions.empty()` -/
  positions : Bool
  /-- `!orientations.empty()` -/
  orientations : Bool
  deriving DecidableEq, Repr

structure Armature where
  actions : List ArmatureAction
  deriving DecidableEq, Repr

structure ObjectAction where
  name : Name
  /-- `keys.size()` -/
  keys : ℕ
  deriving DecidableEq, Repr

structure Object where
  actions : List ObjectAction
  deriving DecidableEq, Repr

structure Fade where
  source : Handle
  target : Handle
  deriving DecidableEq, Repr

structure Fadein where
  target : Handle
  deriving DecidableEq, Repr

structure Fadeout where
  source : Handle
  deriving DecidableEq, Repr

structure Playback where
  armature : Armature
  action : Option ArmatureAction
  repetative : Bool
  finished : Bool
  framei : ℕ
  deriving DecidableEq, Repr

/-- `Playback::update` -/
def Playback.update (x : Playback) : Except Misuse Playback :=
  match x.action with
  | none => .ok x
  | some action =>
    let framei := x.framei + 1
    if framei < action.length then .ok { x with framei := framei }
    else if action.length = 0 then .error .divisionByZero
    else .ok { x with
      finished := x.finished || !x.repetative
      framei := framei % action.length }

structure ObjectPlayback where
  object : Object
  action : Option ObjectAction
  repetative : Bool
  finished : Bool
  framei : ℤ
  deriving DecidableEq, Repr

/-- `ObjectPlayback::update` -/
def ObjectPlayback.update (x : ObjectPlayback) : Except Misuse ObjectPlayback :=
  match x.action with
  | none => .ok x
  | some action =>
    let length : ℤ := action.keys - 1
    if x.framei + 1 < length then .ok { x with framei := x.framei + 1 }
    else if x.repetative then
      if length = 0 then .error .divisionByZero
      else .ok { x with framei := (x.framei + 1).tmod length }
    else .ok { x with finished := true, framei := length }

/-- The types of entries of `mixers`. -/
def Entry : Fin 5 → Type
  | 0 => Fade
  | 1 => Fadein
  | 2 => Fadeout
  | 3 => Playback
  | 4 => ObjectPlayback

abbrev Mixers := Collection Handle Entry

/-! ## Components -/

structure Character where
  armature : Armature
  mixer : Handle
  deriving DecidableEq, Repr

structure Model where
  object : Object
  mixer : Handle
  deriving DecidableEq, Repr

inductive Component
  | character (x : Character)
  | model (x : Model)
  deriving DecidableEq, Repr

inductive ComponentKind | character | model
  deriving DecidableEq, Repr

def Component.kind : Component → ComponentKind
  | .character _ => .character
  | .model _ => .model

def Component.mixer : Component → Handle
  | .character x => x.mixer
  | .model x => x.mixer

def Component.setMixer (mixer : Handle) : Component → Component
  | .character x => .character { x with mixer := mixer }
  | .model x => .model { x with mixer := mixer }

inductive Source
  | armature (x : Armature)
  | object (x : Object)
  deriving DecidableEq, Repr

/-- What components post while they are finalized. -/
inductive Posted
  | onFinish (entity : Token)
  | characterSkinning (entity : Token)
  | movement (entity : Token)
  | orientationMovement (entity : Token)
  | transform (entity : Token)
  deriving DecidableEq, Repr

structure State where
  sources : DenseTable Token Source
  components : DenseTable Token Component
  mixers : Mixers
  nextMixerKey : Handle
  posted : List Posted

def State.initial : State := ⟨∅, ∅, .empty .heap, 0, []⟩

inductive Action
  | registerArmature (asset : Token) (data : Armature)
  | registerObject (asset : Token) (data : Object)
  | addCharacter (entity armature : Token)
  | addModel (entity object : Token)
  | updateAction (entity : Token) (name : Name) (repetative : Bool)
  | remove (entity : Token)
  /-- The part of `update` after the messages. -/
  | update
  deriving DecidableEq, Repr

/-- `find` of a handle -/
def State.find (s : State) (mixer : Handle) : ℕ := s.mixers.find id mixer

/-- What `set_action` creates for a component. -/
def newEntry (component : Component) (name : Name) (repetative : Bool) : Σ type, Entry type :=
  match component with
  | .character x =>
    ⟨3, (⟨x.armature, x.armature.actions.find? (·.name = name), repetative, false, 0⟩ : Playback)⟩
  | .model x =>
    ⟨4, (⟨x.object, x.object.actions.find? (·.name = name), repetative, false, 0⟩ :
      ObjectPlayback)⟩

/-- `set_action`, which is the same for characters and models but for what it creates. -/
def setAction (s : State) (entity : Token) (component : Component) (name : Name)
    (repetative : Bool) : Except Misuse State :=
  let mixer := s.nextMixerKey
  let s := { s with nextMixerKey := (mixer + 1) % 2 ^ 32 }
  let entry := newEntry component name repetative
  match s.mixers.emplace id .heap entry.1 entry.2 mixer with
  | .error _ => .error .outOfFuel
  | .ok (mixers, false) => .ok { s with mixers := mixers }
  | .ok (mixers, true) =>
    let mixers := if component.mixer ≠ invalidMixer then
      mixers.erase id (mixers.find id component.mixer) else mixers
    .ok { s with
      mixers := mixers
      components := s.components.modify entity (Component.setMixer mixer) }

/-- `Character::finalize` -/
def finalizeCharacter (s : State) (entity : Token) (x : Character) : Except Misuse State :=
  if x.mixer = invalidMixer then .ok s
  else if s.find x.mixer = noBucket then .error .endCalled
  else
    match s.mixers.call (s.find x.mixer) with
    | some (_, ⟨3, entry⟩) =>
      let playback : Playback := entry
      match playback.action with
      | none => .error .noAction
      | some action =>
        .ok { s with posted := s.posted ++
          (if playback.finished then [.onFinish entity] else []) ++ [.characterSkinning entity] ++
          (if action.positions then [.movement entity] else []) ++
          (if action.orientations then [.orientationMovement entity] else []) }
    | _ => .error .unreachable

/-- `Model::finalize` -/
def finalizeModel (s : State) (entity : Token) (x : Model) : Except Misuse State :=
  if x.mixer = invalidMixer then .ok s
  else if s.find x.mixer = noBucket then .error .endCalled
  else
    match s.mixers.call (s.find x.mixer) with
    | some (_, ⟨4, entry⟩) =>
      let playback : ObjectPlayback := entry
      match playback.action with
      | none => .error .noAction
      | some _ =>
        let s := { s with posted := s.posted ++ [.transform entity] }
        if playback.finished then
          .ok { s with
            mixers := s.mixers.erase id (s.find x.mixer)
            components := s.components.modify entity (Component.setMixer invalidMixer) }
        else .ok s
    | _ => .error .unreachable

/-- `finalize` of the component of an entity. -/
def finalize (s : State) (entity : Token) : Except Misuse State :=
  match s.components.find entity with
  | none => .ok s
  | some (.character x) => finalizeCharacter s entity x
  | some (.model x) => finalizeModel s entity x

/-- The entities whose components are of a kind, in the order of their array. -/
def State.entities (s : State) (kind : ComponentKind) : List Token :=
  (s.components.array Component.kind kind).map Prod.fst

/-- The loops over the playbacks of a type. -/
def updateAll (type : Fin 5) (update : Entry type → Except Misuse (Entry type)) (mixers : Mixers) :
    Except Misuse Mixers :=
  match (mixers.arrays type).mapM fun p => (update p.1).map fun entry => (entry, p.2) with
  | .error e => .error e
  | .ok array => .ok { mixers with arrays := Function.update mixers.arrays type array }

def finalizeAll (s : State) (entities : List Token) : Except Misuse State :=
  entities.foldlM finalize s

/-- The part of `update` after the messages. -/
def update (s : State) : Except Misuse State :=
  match updateAll 3 Playback.update s.mixers with
  | .error e => .error e
  | .ok mixers =>
    match updateAll 4 ObjectPlayback.update mixers with
    | .error e => .error e
    | .ok mixers =>
      match finalizeAll { s with mixers := mixers } (s.entities .character) with
      | .error e => .error e
      | .ok s => finalizeAll s (s.entities .model)

def step (s : State) : Action → Except Misuse State
  | .registerArmature asset data =>
    .ok { s with sources := (s.sources.emplace asset (.armature data)).getD s.sources }
  | .registerObject asset data =>
    .ok { s with sources := (s.sources.emplace asset (.object data)).getD s.sources }
  | .addCharacter entity armature =>
    match s.sources.find armature with
    | some (.armature data) => .ok { s with
        components := (s.components.emplace entity (.character ⟨data, invalidMixer⟩)).getD
          s.components }
    | _ => .ok s
  | .addModel entity object =>
    match s.sources.find object with
    | some (.object data) => .ok { s with
        components := (s.components.emplace entity (.model ⟨data, invalidMixer⟩)).getD s.components }
    | _ => .ok s
  | .updateAction entity name repetative =>
    match s.components.find entity with
    | none => .ok s
    | some component => setAction s entity component name repetative
  | .remove entity => .ok { s with components := s.components.erase Component.kind entity }
  | .update => update s

/-! ## Handles and entries -/

/-- A handle finds an entry. -/
def State.Finds (s : State) (mixer : Handle) (entry : Σ type, Entry type) : Prop :=
  s.find mixer ≠ noBucket ∧ s.mixers.call (s.find mixer) = some (mixer, entry)

/-- The keys of all entries. -/
def State.keys (s : State) : List Handle :=
  (List.finRange 5).flatMap fun type => (s.mixers.arrays type).map Prod.snd

/-- What a step should do: a new action is found by the handle of its component, every entry
belongs to exactly one component, and the entry of a component that is removed or gets another
action is gone. -/
structure Tracks (s : State) (a : Action) (t : State) : Prop where
  created : ∀ entity name repetative component, a = .updateAction entity name repetative →
    s.components.find entity = some component →
    ∃ component', t.components.find entity = some component' ∧
      t.Finds component'.mixer (newEntry component name repetative)
  nodup : t.keys.Nodup
  referenced : ∀ mixer ∈ t.keys, ∃! entity, ∃ component,
    t.components.find entity = some component ∧ component.mixer = mixer
  removed : ∀ entity component, s.components.find entity = some component →
    (a = .remove entity ∨ ∃ name repetative, a = .updateAction entity name repetative) →
    component.mixer ≠ invalidMixer → component.mixer ∉ t.keys

/-- No component gets an action. -/
def Idle (s : State) (a : Action) : Prop :=
  ∀ entity name repetative, a = .updateAction entity name repetative →
    s.components.find entity = none

/-- No component has ever got an action. -/
structure Untouched (s : State) : Prop where
  mixers : s.mixers = .empty .heap
  next : s.nextMixerKey = 0
  invalid : ∀ entity component, s.components.find entity = some component →
    component.mixer = invalidMixer

theorem untouched_initial : Untouched State.initial :=
  ⟨rfl, rfl, fun _ _ h => nomatch h⟩

/-- The null key is taken for a key of the empty collection. -/
theorem find_empty_zero : (Collection.empty .heap : Mixers).find id 0 ≠ noBucket := by
  decide +kernel

theorem find_empty_invalid : (Collection.empty .heap : Mixers).find id invalidMixer = noBucket :=
  LookupTable.find_eq_noBucket fun _ h => nomatch h

variable {s t : State}

/-- The first action of all is refused, since its key is the null key. -/
theorem Untouched.setAction (h : Untouched s) (entity : Token) (component : Component) (name : Name)
    (repetative : Bool) : setAction s entity component name repetative =
      .ok { s with nextMixerKey := 1 } := by
  obtain ⟨hmixers, hnext, -⟩ := h
  rw [Mixer.setAction]
  simp only [hmixers, hnext, Collection.emplace, if_pos find_empty_zero]
  rfl

theorem Untouched.components (h : Untouched s) {components : DenseTable Token Component}
    (hinvalid : ∀ entity component, components.find entity = some component →
      component.mixer = invalidMixer) : Untouched { s with components := components } :=
  ⟨h.mixers, h.next, hinvalid⟩

/-- A component that is added has no handle. -/
theorem Untouched.emplace (h : Untouched s) {entity : Token} {component : Component}
    (hmixer : component.mixer = invalidMixer) :
    Untouched { s with components := (s.components.emplace entity component).getD s.components } := by
  refine h.components fun entity' component' hfind => ?_
  cases hplace : s.components.emplace entity component with
  | none =>
    rw [hplace, Option.getD_none] at hfind
    exact h.invalid entity' component' hfind
  | some components =>
    rw [hplace, Option.getD_some, DenseTable.find_emplace hplace] at hfind
    split_ifs at hfind
    · cases hfind
      exact hmixer
    · exact h.invalid entity' component' hfind

theorem Untouched.finalize (h : Untouched s) (entity : Token) : finalize s entity = .ok s := by
  unfold Mixer.finalize
  split
  · rfl
  next x hfind => exact if_pos (h.invalid entity _ hfind)
  next x hfind => exact if_pos (h.invalid entity _ hfind)

theorem Untouched.finalizeAll (h : Untouched s) (entities : List Token) :
    finalizeAll s entities = .ok s := by
  induction entities with
  | nil => rfl
  | cons entity entities ih =>
    rw [Mixer.finalizeAll, List.foldlM_cons, h.finalize entity]
    exact ih

theorem updateAll_empty (type : Fin 5) (f : Entry type → Except Misuse (Entry type)) :
    updateAll type f (.empty .heap) = .ok (.empty .heap) := by
  have harrays := Function.update_eq_self type (Collection.empty .heap : Mixers).arrays
  exact congrArg (fun arrays => Except.ok { (Collection.empty .heap : Mixers) with arrays := arrays })
    harrays

theorem Untouched.update (h : Untouched s) : update s = .ok s := by
  have hs : { s with mixers := .empty .heap } = s := by rw [← h.mixers]
  have hplaybacks : updateAll 3 Playback.update (.empty .heap) = .ok (.empty .heap) :=
    updateAll_empty 3 _
  have hobjects : updateAll 4 ObjectPlayback.update (.empty .heap) = .ok (.empty .heap) :=
    updateAll_empty 4 _
  simp only [Mixer.update, h.mixers, hplaybacks, hobjects, hs, h.finalizeAll]

/-- Nothing happens to handles and entries as long as no component gets an action. -/
theorem Untouched.step {a : Action} (h : Untouched s) (ha : Idle s a) :
    ∃ t, Mixer.step s a = .ok t ∧ Tracks s a t ∧ Untouched t := by
  have htracks : ∀ {t : State}, Untouched t → Tracks s a t := fun {t} ht => by
    have hkeys : t.keys = [] := by
      rw [State.keys, ht.mixers]
      rfl
    refine ⟨fun entity name repetative component haction hfind => ?_, by simp [hkeys],
      fun mixer hmixer => ?_, fun entity component hfind _ hmixer => ?_⟩
    · rw [ha entity name repetative haction] at hfind
      cases hfind
    · rw [hkeys] at hmixer
      cases hmixer
    · exact absurd (h.invalid entity component hfind) hmixer
  have hstep : ∃ t, Mixer.step s a = .ok t ∧ Untouched t := by
    cases a with
    | registerArmature | registerObject => exact ⟨_, rfl, h.mixers, h.next, h.invalid⟩
    | addCharacter entity armature =>
      simp only [Mixer.step]
      split
      · exact ⟨_, rfl, h.emplace rfl⟩
      · exact ⟨s, rfl, h⟩
    | addModel entity object =>
      simp only [Mixer.step]
      split
      · exact ⟨_, rfl, h.emplace rfl⟩
      · exact ⟨s, rfl, h⟩
    | updateAction entity name repetative =>
      simp only [Mixer.step, ha entity name repetative rfl]
      exact ⟨s, rfl, h⟩
    | remove entity =>
      refine ⟨_, rfl, h.components fun entity' component hfind => ?_⟩
      rw [DenseTable.find_erase] at hfind
      split_ifs at hfind
      exact h.invalid entity' component hfind
    | update => exact ⟨s, h.update, h⟩
  obtain ⟨t, ht, huntouched⟩ := hstep
  exact ⟨t, ht, htracks huntouched, huntouched⟩

theorem Untouched.of_step {a : Action} (h : Untouched s) (ha : Idle s a)
    (ht : Mixer.step s a = .ok t) : Untouched t := by
  obtain ⟨u, hu, -, huntouched⟩ := h.step ha
  rw [ht] at hu
  cases hu
  exact huntouched

/-- The handle of a component that gets the first action of all finds nothing. -/
theorem Untouched.idle {a : Action} (h : Untouched s) (ht : Mixer.step s a = .ok t)
    (htracks : Tracks s a t) : Idle s a := by
  rintro entity name repetative rfl
  cases hfind : s.components.find entity with
  | none => rfl
  | some component =>
    simp only [Mixer.step, hfind, h.setAction] at ht
    cases ht
    obtain ⟨component', hfind', hbucket, -⟩ :=
      htracks.created entity name repetative component rfl hfind
    have hmixer : component'.mixer = invalidMixer := h.invalid entity component' hfind'
    have hnone : s.mixers.find id component'.mixer = noBucket := by
      rw [hmixer, h.mixers, find_empty_invalid]
    exact absurd hnone hbucket

end Fimbulwinter.Mixer
