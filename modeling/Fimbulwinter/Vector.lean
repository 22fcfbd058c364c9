import Fimbulwinter.UnstableErase
import Mathlib.Logic.Function.Basic

/-! # `utility::vector`

Operations of vectors on the slots of their storage. Elements are constructed, assigned to and
destructed one by one, and so they can go wrong one by one. -/
namespace Fimbulwinter.Vector

/-- What must not be done with slots. -/
inductive Misuse
  | constructOver
  | assignRaw
  | readRaw
  | destructRaw
  /-- A slot behind the end of the storage is used. -/
  | outside
  /-- Storage is used after it has been returned. -/
  | released
  /-- Storage is returned while there are elements in it. -/
  | leaked
  deriving DecidableEq, Repr

/-- The storage and the reservation strategy of a vector. -/
inductive Storage
  | static (capacity : ℕ)
  | dynamic (elementSize : ℕ) (pos : 0 < elementSize) (reservation : ℕ → ℕ)

def Storage.reservation : Storage → ℕ → ℕ
  | .static capacity => fun _ => capacity
  | .dynamic _ _ reservation => reservation

/-- `vector_data`, with `cap_` and `end_` as indices. The storage has `extent` slots. -/
structure VectorData (α : Type*) where
  slots : ℕ → Option α
  extent : ℕ
  capacity : ℕ
  size : ℕ

/-- An argument of a call, which may refer to an element of the vector itself. -/
inductive Argument (α : Type*)
  | value (x : α)
  | element (i : ℕ)

def Argument.value? {α : Type*} (xs : List α) : Argument α → Option α
  | .value x => some x
  | .element i => xs[i]?

variable {α : Type*}

/-- Storage without elements; a capacity is turned into a number of bytes in 64 bits. -/
def Storage.allocate (storage : Storage) (capacity : ℕ) (granted : Bool) :
    Option (VectorData α) :=
  match storage with
  | .static n => if capacity = n then some ⟨fun _ => none, n, n, 0⟩ else none
  | .dynamic elementSize _ _ =>
    if granted then
      some ⟨fun _ => none, elementSize * capacity % 2 ^ 64 / elementSize, capacity, 0⟩
    else none

/-- What `release` leaves of a vector that has given its storage away, or has got none. -/
def VectorData.released : VectorData α := ⟨fun _ => none, 0, 0, 0⟩

/-- The constructor of vectors. -/
def initial (storage : Storage) (granted : Bool) : VectorData α :=
  (storage.allocate (storage.reservation 0) granted).getD .released

namespace VectorData

-- Whether there is nothing to do for the destruction of an element.
variable (trivial : Bool)

def construct (v : VectorData α) (i : ℕ) (x : α) : Except Misuse (VectorData α) :=
  if v.extent ≤ i then .error .outside
  else if trivial = false ∧ v.slots i ≠ none then .error .constructOver
  else .ok { v with slots := Function.update v.slots i (some x) }

def read (v : VectorData α) (i : ℕ) : Except Misuse α :=
  match v.slots i with
  | none => .error .readRaw
  | some x => .ok x

def assign (v : VectorData α) (i : ℕ) (x : α) : Except Misuse (VectorData α) :=
  match v.slots i with
  | none => .error .assignRaw
  | some _ => .ok { v with slots := Function.update v.slots i (some x) }

def destruct (v : VectorData α) (i : ℕ) : Except Misuse (VectorData α) :=
  if trivial then .ok v
  else
    match v.slots i with
    | none => .error .destructRaw
    | some _ => .ok { v with slots := Function.update v.slots i none }

/-- `construct_fill` -/
def constructFill (v : VectorData α) (i : ℕ) (x : α) : ℕ → Except Misuse (VectorData α)
  | 0 => .ok v
  | n + 1 =>
    match v.construct trivial i x with
    | .error e => .error e
    | .ok v => constructFill v (i + 1) x n

/-- `construct_range` with the slots of another vector from the same index on. -/
def constructRange (source v : VectorData α) (i : ℕ) : ℕ → Except Misuse (VectorData α)
  | 0 => .ok v
  | n + 1 =>
    match source.read i with
    | .error e => .error e
    | .ok x =>
      match v.construct trivial i x with
      | .error e => .error e
      | .ok v => constructRange source v (i + 1) n

def destructRange (v : VectorData α) (i : ℕ) : ℕ → Except Misuse (VectorData α)
  | 0 => .ok v
  | n + 1 =>
    match v.destruct trivial i with
    | .error e => .error e
    | .ok v => destructRange v (i + 1) n

/-- The elements are destructed and the storage is returned. -/
def purge (v : VectorData α) : Except Misuse Unit :=
  match v.destructRange trivial 0 v.size with
  | .error e => .error e
  | .ok v => if trivial = false ∧ ∃ i < v.extent, v.slots i ≠ none then .error .leaked else .ok ()

/-- `copy` and `move` of `vector_data`, to slots that are raw. -/
def copy (v other : VectorData α) : Except Misuse (VectorData α) :=
  match constructRange trivial other v 0 other.size with
  | .error e => .error e
  | .ok v => .ok { v with size := other.size }

/-- `try_reallocate`, and whether it succeeds. -/
def reallocate (storage : Storage) (v : VectorData α) (minCapacity : ℕ) (granted : Bool) :
    Except Misuse (VectorData α × Bool) :=
  match storage with
  | .static _ => .ok (v, false)
  | .dynamic _ _ reservation =>
    if reservation minCapacity < minCapacity then .ok (v, false)
    else
      match storage.allocate (reservation minCapacity) granted with
      | none => .ok (v, false)
      | some data =>
        match data.copy trivial v with
        | .error e => .error e
        | .ok data =>
          match v.purge trivial with
          | .error e => .error e
          | .ok _ => .ok (data, true)

/-- `try_emplace_back` without reallocation. -/
def emplaceAtEnd (v : VectorData α) (x : α) : Except Misuse (VectorData α × Bool) :=
  match v.construct trivial v.size x with
  | .error e => .error e
  | .ok v => .ok ({ v with size := v.size + 1 }, true)

/-- The value of an argument while the storage is still the one that it may refer to. -/
def argument (v : VectorData α) : Argument α → Except Misuse α
  | .value x => .ok x
  | .element i => v.read i

/-- The value of an argument when the storage has been replaced. -/
def argumentAfter : Argument α → Except Misuse α
  | .value x => .ok x
  | .element _ => .error .released

def tryReserve (storage : Storage) (v : VectorData α) (minCapacity : ℕ) (granted : Bool) :
    Except Misuse (VectorData α × Bool) :=
  if minCapacity ≤ v.capacity then .ok (v, true)
  else v.reallocate trivial storage minCapacity granted

def tryEmplaceBack (storage : Storage) (v : VectorData α) (p : Argument α) (granted : Bool) :
    Except Misuse (VectorData α × Bool) :=
  if v.size ≠ v.capacity then
    match v.argument p with
    | .error e => .error e
    | .ok x => v.emplaceAtEnd trivial x
  else
    match v.tryReserve trivial storage (v.size + 1) granted with
    | .error e => .error e
    | .ok (v, false) => .ok (v, false)
    | .ok (v, true) =>
      match argumentAfter p with
      | .error e => .error e
      | .ok x => v.emplaceAtEnd trivial x

def resize (storage : Storage) (v : VectorData α) (size : ℕ) (p : Argument α) (granted : Bool) :
    Except Misuse (VectorData α × Bool) :=
  if size < v.size then
    match v.destructRange trivial size (v.size - size) with
    | .error e => .error e
    | .ok v => .ok ({ v with size := size }, true)
  else if v.capacity < size then
    match v.reallocate trivial storage size granted with
    | .error e => .error e
    | .ok (v, false) => .ok (v, false)
    | .ok (v, true) =>
      match argumentAfter p with
      | .error e => .error e
      | .ok x =>
        match v.constructFill trivial v.size x (size - v.size) with
        | .error e => .error e
        | .ok v => .ok ({ v with size := size }, true)
  else
    match v.argument p with
    | .error e => .error e
    | .ok x =>
      match v.constructFill trivial v.size x (size - v.size) with
      | .error e => .error e
      | .ok v => .ok ({ v with size := size }, true)

/-- `insert`: the element at `it` goes to the end and `p` takes its place. -/
def insert (storage : Storage) (v : VectorData α) (it : ℕ) (p : Argument α) (granted : Bool) :
    Except Misuse (VectorData α × Bool) :=
  if it ≠ v.size then
    match v.tryEmplaceBack trivial storage (.element it) granted with
    | .error e => .error e
    | .ok (v, false) => .ok (v, false)
    | .ok (v, true) =>
      match v.argument p with
      | .error e => .error e
      | .ok x =>
        match v.assign it x with
        | .error e => .error e
        | .ok v => .ok (v, true)
  else v.tryEmplaceBack trivial storage p granted

def clear (v : VectorData α) : Except Misuse (VectorData α) :=
  match v.destructRange trivial 0 v.size with
  | .error e => .error e
  | .ok v => .ok { v with size := 0 }

/-- The last element is moved to `it`. -/
def moveLast (v : VectorData α) (it last : ℕ) : Except Misuse (VectorData α) :=
  match v.read last with
  | .error e => .error e
  | .ok x =>
    match v.assign it x with
    | .error e => .error e
    | .ok v => v.destruct trivial last

def erase (v : VectorData α) (it : ℕ) : Except Misuse (VectorData α) :=
  if it < v.size then
    match v.moveLast trivial it (v.size - 1) with
    | .error e => .error e
    | .ok v => .ok { v with size := v.size - 1 }
  else .ok v

/-- The loop of the unstable range erase, where `last` is one more than in the source. -/
def eraseLoop (v : VectorData α) (it last : ℕ) : ℕ → Except Misuse (VectorData α)
  | 0 => .ok { v with size := last }
  | n + 1 =>
    match v.moveLast trivial it (last - 1) with
    | .error e => .error e
    | .ok v => eraseLoop v (it + 1) (last - 1) n

def eraseRange (v : VectorData α) (start stop : ℕ) : Except Misuse (VectorData α) :=
  if start ≤ stop ∧ stop ≤ v.size then v.eraseLoop trivial start v.size (stop - start)
  else .ok v

/-- The loop of the stable erases. -/
def shift (v : VectorData α) (write read : ℕ) : ℕ → Except Misuse (VectorData α)
  | 0 => .ok v
  | n + 1 =>
    match v.read read with
    | .error e => .error e
    | .ok x =>
      match v.assign write x with
      | .error e => .error e
      | .ok v => shift v (write + 1) (read + 1) n

/-- The stable erase of one element. -/
def eraseStableAt (v : VectorData α) (it : ℕ) : Except Misuse (VectorData α) :=
  if it < v.size then
    match v.shift it (it + 1) (v.size - (it + 1)) with
    | .error e => .error e
    | .ok v =>
      match v.destruct trivial (it + (v.size - (it + 1))) with
      | .error e => .error e
      | .ok v => .ok { v with size := it + (v.size - (it + 1)) }
  else .ok v

/-- The stable erase of a range. -/
def eraseStable (v : VectorData α) (start stop : ℕ) : Except Misuse (VectorData α) :=
  if start ≤ stop ∧ stop ≤ v.size then
    match v.shift start stop (v.size - stop) with
    | .error e => .error e
    | .ok v =>
      match v.destructRange trivial (start + (v.size - stop)) (stop - start) with
      | .error e => .error e
      | .ok v => .ok { v with size := start + (v.size - stop) }
  else .ok v

end VectorData

end Fimbulwinter.Vector
