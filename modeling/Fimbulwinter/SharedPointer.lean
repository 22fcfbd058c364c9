import Fimbulwinter.DenseTable
import Fimbulwinter.TransitionRuns
import Mathlib.Data.Finset.Card

/-! # `ext::shared_ptr` and `ext::weak_ptr`

Threads use handles to one block. Every operation on one of the two counters, and the
destruction of the object and of the block, is a step of its own. -/
namespace Fimbulwinter.SharedPointer

variable {Thread I : Type*} [DecidableEq Thread] [DecidableEq I]

inductive Kind
  | shared
  | weak
  deriving DecidableEq, Repr

/-- A handle of either kind. -/
abbrev Handle (I : Type*) := Kind × I

/-- What must not happen to the block. -/
inductive Misuse
  | blockFreed
  | objectDestructed
  | objectAlive
  deriving DecidableEq, Repr

/-- The next step of an operation. -/
inductive Phase
  /-- The first step of `lock`. -/
  | load
  /-- The exchange in `lock`, with the count that it expects. -/
  | exchange (sharedCount : ℤ)
  | incShared
  | incWeak
  | decShared
  | destruct
  | decWeak
  | free
  /-- The handles get their new values. -/
  | finish
  deriving DecidableEq, Repr

/-- An operation that has begun. -/
structure Operation (I : Type*) where
  /-- The kind of the handles that are changed. -/
  kind : Kind
  phase : Phase
  /-- The handle that refers to the block in the end. -/
  gain : Option (Handle I)
  /-- Whether a reference is given up once the new one is counted. -/
  drop : Bool
  /-- The handles that are changed. -/
  changes : List (Handle I)
  /-- Another handle that is read. -/
  source : Option (Handle I)

structure State (Thread I : Type*) where
  sharedCount : ℤ
  weakCount : ℤ
  /-- How often the object has been destructed, and the block freed. -/
  destructed : ℕ
  freed : ℕ
  /-- The handles that refer to the block, except for those that are being changed. -/
  owners : Finset (Handle I)
  operations : DenseTable Thread (Operation I)

/-- A block, and the handle that has created it. -/
def State.initial (creator : I) : State Thread I where
  sharedCount := 1
  weakCount := 1
  destructed := 0
  freed := 0
  owners := {(.shared, creator)}
  operations := ∅

/-- What threads do with handles. A handle that is destructed is reset, and its name can be
used again. -/
inductive Request (I : Type*)
  | copy (target source : Handle I)
  | move (target source : Handle I)
  | assign (target source : Handle I)
  | moveAssign (target source : Handle I)
  | reset (target : Handle I)
  | lock (target source : I)

/-- The first step of `inc` and of `dec`. -/
def Kind.inc : Kind → Phase
  | shared => .incShared
  | weak => .incWeak

def Kind.dec : Kind → Phase
  | shared => .decShared
  | weak => .decWeak

section Step

variable (s : State Thread I)

/-- Nobody else uses the handle. -/
def canChange (h : Handle I) : Prop :=
  ∀ r ∈ s.operations.rows, h ∉ r.2.changes ∧ r.2.source ≠ some h

/-- Nobody changes the handle. -/
def canRead (h : Handle I) : Prop := ∀ r ∈ s.operations.rows, h ∉ r.2.changes

instance (h : Handle I) : Decidable (canChange s h) :=
  inferInstanceAs (Decidable (∀ r ∈ s.operations.rows, _))

instance (h : Handle I) : Decidable (canRead s h) :=
  inferInstanceAs (Decidable (∀ r ∈ s.operations.rows, _))

/-- The operation that a request begins, if the handles that it uses are free for it. Nothing
has to be done for a handle that refers to nothing. -/
def begin : Request I → Option (Operation I)
  | .copy target source =>
    if (source.1 = target.1 ∨ source.1 = .shared) ∧ target ∉ s.owners ∧ source ∈ s.owners ∧
        canChange s target ∧ canRead s source then
      some ⟨target.1, target.1.inc, some target, false, [target], some source⟩
    else none
  | .move target source =>
    if source.1 = target.1 ∧ target ∉ s.owners ∧ source ∈ s.owners ∧
        canChange s target ∧ canChange s source then
      some ⟨target.1, .finish, some target, false, [target, source], none⟩
    else none
  | .assign target source =>
    if source = target then
      if target ∈ s.owners ∧ canChange s target then
        some ⟨target.1, target.1.inc, some target, true, [target], none⟩
      else none
    else if source.1 = target.1 ∧ canChange s target ∧ canRead s source then
      if source ∈ s.owners then
        some ⟨target.1, target.1.inc, some target, target ∈ s.owners, [target], some source⟩
      else if target ∈ s.owners then
        some ⟨target.1, target.1.dec, none, true, [target], some source⟩
      else none
    else none
  | .moveAssign target source =>
    if source = target then
      if target ∈ s.owners ∧ canChange s target then
        some ⟨target.1, target.1.dec, none, true, [target], none⟩
      else none
    else if source.1 = target.1 ∧ canChange s target ∧ canChange s source then
      some ⟨target.1, if target ∈ s.owners then target.1.dec else .finish,
        if source ∈ s.owners then some target else none, target ∈ s.owners,
        [target, source], none⟩
    else none
  | .reset target =>
    if target ∈ s.owners ∧ canChange s target then
      some ⟨target.1, target.1.dec, none, true, [target], none⟩
    else none
  | .lock target source =>
    if (.shared, target) ∉ s.owners ∧ (.weak, source) ∈ s.owners ∧
        canChange s (.shared, target) ∧ canRead s (.weak, source) then
      some ⟨.shared, .load, some (.shared, target), false, [(.shared, target)],
        some (.weak, source)⟩
    else none

/-- The loop of `lock`, with the count that has been seen. -/
def retry (op : Operation I) : Operation I :=
  if 0 < s.sharedCount then { op with phase := .exchange s.sharedCount }
  else { op with phase := .finish, gain := none }

/-- A step of an operation, with the value that `fetch_sub` returns being the one before it. -/
def advance (op : Operation I) : Except Misuse (State Thread I × Operation I) :=
  if s.freed ≠ 0 then .error .blockFreed
  else
    match op.phase with
    | .load => .ok (s, retry s op)
    | .exchange sharedCount =>
      if s.sharedCount = sharedCount then
        .ok ({ s with sharedCount := s.sharedCount + 1 }, { op with phase := .incWeak })
      else .ok (s, retry s op)
    | .incShared =>
      .ok ({ s with sharedCount := s.sharedCount + 1 }, { op with phase := .incWeak })
    | .incWeak =>
      .ok ({ s with weakCount := s.weakCount + 1 },
        { op with phase := if op.drop then op.kind.dec else .finish })
    | .decShared =>
      .ok ({ s with sharedCount := s.sharedCount - 1 },
        { op with phase := if s.sharedCount = 1 then .destruct else .decWeak })
    | .destruct =>
      if s.destructed ≠ 0 then .error .objectDestructed
      else .ok ({ s with destructed := s.destructed + 1 }, { op with phase := .decWeak })
    | .decWeak =>
      .ok ({ s with weakCount := s.weakCount - 1 },
        { op with phase := if s.weakCount = 1 then .free else .finish })
    | .free =>
      if s.destructed = 0 then .error .objectAlive
      else .ok ({ s with freed := s.freed + 1 }, { op with phase := .finish })
    | .finish => .ok (s, op)

/-- The handles have their new values. -/
def finish (t : Thread) (op : Operation I) : State Thread I :=
  { s with
    owners := match op.gain with
      | none => s.owners
      | some h => insert h s.owners
    operations := s.operations.erase (fun _ => ()) t }

inductive Action (Thread I : Type*)
  | begin (t : Thread) (request : Request I)
  | advance (t : Thread)

/-- A step of a thread; one that cannot be taken changes nothing. -/
def step : Action Thread I → Except Misuse (State Thread I)
  | .begin t request =>
    match begin s request with
    | none => .ok s
    | some op =>
      match s.operations.emplace t op with
      | none => .ok s
      | some operations =>
        .ok { s with owners := s.owners \ op.changes.toFinset, operations := operations }
  | .advance t =>
    match s.operations.find t with
    | none => .ok s
    | some op =>
      if op.phase = .finish then .ok (finish s t op)
      else
        match advance s op with
        | .error e => .error e
        | .ok (s, op) => .ok { s with operations := s.operations.modify t fun _ => op }

end Step

/-! ## References -/

/-- Whether the operation gives a handle a reference in the end, as a number. -/
def Operation.gains (op : Operation I) : ℕ := if op.gain.isSome then 1 else 0

/-- The references in the shared count that the operation holds. -/
def Operation.sharedHeld (op : Operation I) : ℕ :=
  match op.kind with
  | .weak => 0
  | .shared =>
    match op.phase with
    | .load | .exchange _ => 0
    | .incShared => op.drop.toNat
    | .incWeak => op.drop.toNat + 1
    | .decShared => op.gains + 1
    | .destruct | .decWeak | .free | .finish => op.gains

/-- The references in the weak count that the operation holds. -/
def Operation.weakHeld (op : Operation I) : ℕ :=
  match op.phase with
  | .load | .exchange _ => 0
  | .incShared | .incWeak => op.drop.toNat
  | .decShared | .destruct | .decWeak => op.gains + 1
  | .free | .finish => op.gains

/-- The shared handles among handles. -/
def sharedOf (owners : Finset (Handle I)) : Finset (Handle I) :=
  owners.filter fun h => h.1 = .shared

/-- An operation changes handles that nobody else has, and reads one that refers to the block
for as long as it holds no reference of its own. -/
structure Operation.Proper (op : Operation I) (owners : Finset (Handle I)) : Prop where
  changed : ∀ h ∈ op.changes, h ∉ owners
  gain : ∀ h, op.gain = some h → h ∈ op.changes ∧ h.1 = op.kind
  kind : op.phase = .incShared ∨ op.phase = .decShared ∨ op.phase = .destruct → op.kind = .shared
  locks : op.phase = .load ∨ (∃ c, op.phase = .exchange c) →
    op.kind = .shared ∧ op.drop = false ∧ op.gain.isSome ∧ ∃ h ∈ owners, op.source = some h
  expects : ∀ c, op.phase = .exchange c → 0 < c
  incShared : op.phase = .incShared →
    op.gain.isSome ∧ (op.drop = true ∨ ∃ h ∈ sharedOf owners, op.source = some h)
  incWeak : op.phase = .incWeak →
    op.gain.isSome ∧ (op.drop = true ∨ ∃ h ∈ owners, op.source = some h)

/-- The counts are the numbers of references, and the object and the block are about to go or
have gone when there are none. -/
structure Counted (s : State Thread I) : Prop where
  shared : s.sharedCount =
    ((sharedOf s.owners).card + s.operations.sum fun _ op => op.sharedHeld : ℕ)
  weak : s.weakCount = (s.owners.card + s.operations.sum fun _ op => op.weakHeld : ℕ)
  destruct : (s.destructed + s.operations.sum fun _ op => if op.phase = .destruct then 1 else 0) =
    if s.sharedCount = 0 then 1 else 0
  free : (s.freed + s.operations.sum fun _ op => if op.phase = .free then 1 else 0) =
    if s.weakCount = 0 then 1 else 0
  proper : ∀ t op, s.operations.find t = some op → op.Proper s.owners
  disjoint : ∀ t t' op op', s.operations.find t = some op → s.operations.find t' = some op' →
    t ≠ t' → ∀ h ∈ op.changes, h ∉ op'.changes
  reads : ∀ t t' op op', s.operations.find t = some op → s.operations.find t' = some op' →
    ∀ h, op.source = some h → h ∉ op'.changes

end Fimbulwinter.SharedPointer
