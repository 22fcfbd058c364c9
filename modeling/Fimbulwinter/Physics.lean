import Fimbulwinter.DenseTable
import Mathlib.Algebra.Group.Defs
import Mathlib.Data.PNat.Basic

/-! # Objects of the physics simulation

`update_start` of `engine/physics/physics.cpp`. Entities are nonzero tokens, and the
operations on vectors and quaternions are left uninterpreted. -/
namespace Fimbulwinter.Physics

abbrev Token := ℕ+

structure Transform (V Q : Type*) where
  pos : V
  quat : Q
  deriving DecidableEq, Repr

/-- `object_t` -/
structure Object (V Q : Type*) where
  position : V
  orientation : Q
  deriving DecidableEq, Repr

inductive EntityMessage (V Q : Type*)
  | addObject (entity : Token) (transform : Transform V Q)
  | remove (entity : Token)
  | updateMovement (entity : Token) (movement : V)
  | updateOrientationMovement (entity : Token) (movement : Q)
  | updateTransform (entity : Token) (transform : Transform V Q)
  deriving DecidableEq, Repr

abbrev Objects (V Q : Type*) := DenseTable Token (Object V Q)

variable {V Q : Type*} [Add V] [Mul Q] (rotate : V → Q → V)

def Object.updateMovement (movement : V) (x : Object V Q) : Object V Q :=
  { x with position := x.position + rotate movement x.orientation }

def Object.updateOrientationMovement (movement : Q) (x : Object V Q) : Object V Q :=
  { x with orientation := x.orientation * movement }

def Object.updateTransform (transform : Transform V Q) (_ : Object V Q) : Object V Q :=
  ⟨transform.pos, transform.quat⟩

/-- `find` and `call` -/
def callObject (objects : Objects V Q) (entity : Token) (f : Object V Q → Object V Q) :
    Objects V Q :=
  if objects.find entity ≠ none then objects.modify entity f else objects

/-- `ProcessMessage`. The handler of an added object returns when the entity is not there yet. -/
def processMessage (objects : Objects V Q) : EntityMessage V Q → Objects V Q
  | .addObject entity transform =>
    if objects.find entity ≠ none then
      (objects.emplace entity ⟨transform.pos, transform.quat⟩).getD objects
    else objects
  | .remove entity =>
    if objects.find entity ≠ none then objects.erase (fun _ => ()) entity else objects
  | .updateMovement entity movement => callObject objects entity (Object.updateMovement rotate movement)
  | .updateOrientationMovement entity movement =>
    callObject objects entity (Object.updateOrientationMovement movement)
  | .updateTransform entity transform => callObject objects entity (Object.updateTransform transform)

/-- `update_start` -/
def updateStart (objects : Objects V Q) (messages : List (EntityMessage V Q)) : Objects V Q :=
  messages.foldl (processMessage rotate) objects

/-! ## What the messages say about an entity -/

def EntityMessage.entity : EntityMessage V Q → Token
  | .addObject entity _ | .remove entity | .updateMovement entity _
  | .updateOrientationMovement entity _ | .updateTransform entity _ => entity

def EntityMessage.isAdd : EntityMessage V Q → Bool
  | .addObject _ _ => true
  | _ => false

/-- The update that a message asks for. -/
def EntityMessage.update : EntityMessage V Q → Object V Q → Object V Q
  | .updateMovement _ movement => Object.updateMovement rotate movement
  | .updateOrientationMovement _ movement => Object.updateOrientationMovement movement
  | .updateTransform _ transform => Object.updateTransform transform
  | .addObject _ _ | .remove _ => id

/-- The object of an entity after a message for the entity: an add of an object that is there and
an update of one that is not change nothing. -/
def EntityMessage.apply (message : EntityMessage V Q) (object : Option (Object V Q)) :
    Option (Object V Q) :=
  match message with
  | .addObject _ transform => some (object.getD ⟨transform.pos, transform.quat⟩)
  | .remove _ => none
  | message => object.map (message.update rotate)

/-- The object of an entity after its messages. -/
def history (entity : Token) (object : Option (Object V Q)) (messages : List (EntityMessage V Q)) :
    Option (Object V Q) :=
  (messages.filter fun message => message.entity = entity).foldl
    (fun object message => message.apply rotate object) object

/-- Whether an entity is there, and whether it has been added since it was last not there. -/
structure Presence where
  present : Bool
  added : Bool
  deriving DecidableEq, Repr

def Presence.after (presence : Presence) : EntityMessage V Q → Presence
  | .addObject _ _ => ⟨true, presence.added || !presence.present⟩
  | .remove _ => ⟨false, false⟩
  | _ => presence

/-- The messages add an entity that is not there, and do not remove it again. -/
def addedAtLast (entity : Token) (present : Bool) (messages : List (EntityMessage V Q)) : Bool :=
  ((messages.filter fun message => message.entity = entity).foldl Presence.after
    ⟨present, false⟩).added

variable {objects : Objects V Q} {rotate} {entity : Token}

omit [Add V] [Mul Q] in
theorem find_callObject (entity' : Token) (f : Object V Q → Object V Q) :
    (callObject objects entity f).find entity' =
      if entity' = entity then (objects.find entity).map f else objects.find entity' := by
  unfold callObject
  split_ifs with hfind heq heq
  · rw [DenseTable.find_modify, if_pos heq]
  · rw [DenseTable.find_modify, if_neg heq]
  · subst heq
    rw [not_not] at hfind
    rw [hfind, Option.map_none]
  · rfl

variable (rotate) in
/-- A message changes nothing for other entities. -/
theorem find_processMessage_of_ne {message : EntityMessage V Q} (h : message.entity ≠ entity) :
    (processMessage rotate objects message).find entity = objects.find entity := by
  have hne := Ne.symm h
  cases message with
  | addObject entity' transform =>
    simp only [processMessage]
    split_ifs with hfind
    · rw [DenseTable.emplace_eq_none_iff.mpr hfind, Option.getD_none]
    · rfl
  | remove entity' =>
    simp only [processMessage]
    split_ifs with hfind
    · exact (DenseTable.find_erase ..).trans (if_neg hne)
    · rfl
  | updateMovement entity' movement => exact (find_callObject ..).trans (if_neg hne)
  | updateOrientationMovement entity' movement => exact (find_callObject ..).trans (if_neg hne)
  | updateTransform entity' transform => exact (find_callObject ..).trans (if_neg hne)

/-- For its own entity, a message does what it should unless it adds an object. -/
theorem find_processMessage (message : EntityMessage V Q) :
    (processMessage rotate objects message).find message.entity =
      if message.isAdd then objects.find message.entity
      else message.apply rotate (objects.find message.entity) := by
  cases message with
  | addObject entity transform =>
    rw [EntityMessage.isAdd, if_pos rfl, processMessage]
    split_ifs with hfind
    · rw [DenseTable.emplace_eq_none_iff.mpr hfind, Option.getD_none]
    · rfl
  | remove entity =>
    rw [if_neg (by simp [EntityMessage.isAdd]), processMessage]
    split_ifs with hfind
    · exact (DenseTable.find_erase ..).trans (if_pos rfl)
    · exact not_not.mp hfind
  | updateMovement entity movement => exact (find_callObject ..).trans (if_pos rfl)
  | updateOrientationMovement entity movement => exact (find_callObject ..).trans (if_pos rfl)
  | updateTransform entity transform => exact (find_callObject ..).trans (if_pos rfl)

/-- What the table holds for an entity, against its object according to the messages. -/
structure Presence.Tells (presence : Presence) (found object : Option (Object V Q)) : Prop where
  found : found = if presence.added then none else object
  present : presence.present = object.isSome
  added : presence.added → presence.present

theorem Presence.Tells.step {presence : Presence} {object : Option (Object V Q)}
    (h : presence.Tells (objects.find entity) object) {message : EntityMessage V Q}
    (hentity : message.entity = entity) :
    (presence.after message).Tells ((processMessage rotate objects message).find entity)
      (message.apply rotate object) := by
  subst hentity
  obtain ⟨present, added⟩ := presence
  obtain ⟨hfound, rfl, hadded⟩ := h
  rw [find_processMessage, hfound]
  cases message with
  | addObject entity transform =>
    refine ⟨?_, rfl, fun _ => rfl⟩
    cases object <;> simp [Presence.after, EntityMessage.apply, EntityMessage.isAdd]
  | remove entity => exact ⟨rfl, rfl, fun h => h⟩
  | updateMovement | updateOrientationMovement | updateTransform =>
    refine ⟨?_, by simp [Presence.after, EntityMessage.apply], hadded⟩
    cases added <;> rfl

variable (rotate) in
theorem Presence.Tells.updateStart {presence : Presence} {object : Option (Object V Q)}
    (messages : List (EntityMessage V Q)) (h : presence.Tells (objects.find entity) object) :
    Presence.Tells ((messages.filter fun message => message.entity = entity).foldl
        Presence.after presence)
      ((updateStart rotate objects messages).find entity) (history rotate entity object messages) := by
  induction messages generalizing objects presence object with
  | nil => exact h
  | cons message messages ih =>
    by_cases hentity : message.entity = entity
    · simpa [history, Physics.updateStart, hentity] using ih (h.step hentity)
    · rw [← find_processMessage_of_ne rotate hentity] at h
      simpa [history, Physics.updateStart, hentity] using ih h

end Fimbulwinter.Physics
