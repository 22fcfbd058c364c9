import Fimbulwinter.OptionalLifetimes
import Mathlib.Algebra.Group.Nat.Defs

/-! # `core::container::Buffer`

Blocks are numbered in the order of their allocation; what `realloc` does is an input of a call.
Members of a buffer that have not been initialised have no value. -/
namespace Fimbulwinter.ScalarBuffer
open OptionalLifetimes (Accounted)

inductive Misuse
  /-- A block is freed, or reallocated, that has been freed. -/
  | freed
  /-- A member is used that has not been initialised. -/
  | uninitialised
  /-- Bytes are copied behind the end of a block. -/
  | outside
  deriving DecidableEq, Repr

/-- A scalar type. -/
structure Scalar where
  type : ℕ
  size : ℕ
  pos : 0 < size
  fits : size < 2 ^ 32

/-- `Buffer`, with `storage` of `scalar_alloc`. -/
structure Buffer where
  storage : Option ℕ
  size : Option ℕ
  valueSize : Option ℕ
  valueType : Option ℕ
  deriving DecidableEq, Repr

/-- What `realloc` makes of a block. -/
inductive Reallocation
  /-- There is another block, and the old one has been freed. -/
  | moves
  /-- It returns null, and the block is kept. -/
  | fails
  /-- It returns null, and has freed the block, which is for 0 bytes only. -/
  | frees
  deriving DecidableEq, Repr

/-- The buffers of a program, and what has become of the blocks that have been allocated. -/
structure State (Name : Type) where
  buffers : Name → Option Buffer
  /-- the number of bytes of a block -/
  bytes : ℕ → ℕ
  /-- the number of blocks that have been allocated -/
  allocated : ℕ
  freed : List ℕ
  /-- what the last call has returned, where it returns something -/
  result : Bool

variable {Name : Type} [DecidableEq Name]

def State.initial : State Name := ⟨fun _ => none, fun _ => 0, 0, [], true⟩

inductive Action (Name : Type)
  /-- the default constructor; members are zeroed first in `Buffer{}`, and in static storage -/
  | create (x : Name) (zeroed : Bool)
  | reshape (x : Name) (T : Scalar) (size : ℕ) (reallocation : Reallocation)
  | copy (x y : Name) (reallocation : Reallocation)
  | moveFrom (x y : Name)
  | moveAssign (x y : Name)
  | destroy (x : Name)

/-! ## Blocks -/

section Blocks

variable (x y : Name) (s : State Name)

def State.storage : Option ℕ := (s.buffers x).bind Buffer.storage

def setBuffer (buffer : Option Buffer) : State Name :=
  { s with buffers := Function.update s.buffers x buffer }

def setStorage (storage : Option ℕ) : State Name :=
  setBuffer x s ((s.buffers x).map fun b => { b with storage := storage })

/-- The other members of a buffer become those of another one. -/
def setMembers : State Name :=
  setBuffer x s ((s.buffers x).map fun b =>
    { b with
      size := (s.buffers y).bind Buffer.size
      valueSize := (s.buffers y).bind Buffer.valueSize
      valueType := (s.buffers y).bind Buffer.valueType })

/-- `std::free` -/
def free : Option ℕ → Except Misuse (State Name)
  | none => .ok s
  | some block =>
    if block ∈ s.freed then .error .freed else .ok { s with freed := s.freed ++ [block] }

/-- `resize` of `scalar_alloc` -/
def resize (size : ℕ) (reallocation : Reallocation) : Except Misuse (Bool × State Name) :=
  match reallocation with
  | .moves => do
    let s ← free s (s.storage x)
    return (true, { setStorage x s (some s.allocated) with
      bytes := Function.update s.bytes s.allocated size
      allocated := s.allocated + 1 })
  | .fails => do
    let _ ← free s (s.storage x)
    return (false, s)
  | .frees => do
    let t ← free s (s.storage x)
    return (false, if size = 0 then t else s)

/-- The number of bytes that can be read at `data()`. -/
def State.room : ℕ :=
  match s.storage x with
  | some block => if block ∈ s.freed then 0 else s.bytes block
  | none => 0

/-- `bytes_size` -/
def bytesSize : Except Misuse ℕ :=
  match (s.buffers x).bind Buffer.size, (s.buffers x).bind Buffer.valueSize with
  | some size, some valueSize => .ok (size * valueSize % 2 ^ 64)
  | _, _ => .error .uninitialised

/-- `memcpy` between buffers. -/
def memcpy (size : ℕ) : Except Misuse Unit :=
  if size ≤ s.room x ∧ size ≤ s.room y then .ok () else .error .outside

/-! ## Buffers -/

/-- `reshape` -/
def reshape (T : Scalar) (size : ℕ) (reallocation : Reallocation) :
    Except Misuse (State Name) := do
  let (b, s) ← resize x s (size * T.size % 2 ^ 64) reallocation
  if b = false then return { s with result := false }
  else
    return { setBuffer x s ((s.buffers x).map fun b =>
      ⟨b.storage, some size, some T.size, some T.type⟩) with result := true }

/-- `copy`, of the first buffer to the second -/
def copy (reallocation : Reallocation) : Except Misuse (State Name) := do
  let bytes ← bytesSize x s
  let (b, s) ← resize y s bytes reallocation
  if b = false then return { s with result := false }
  else do
    memcpy x y s bytes
    return { setMembers y x s with result := true }

/-- The move constructor. -/
def moveFrom : State Name := setStorage y (setBuffer x s (s.buffers y)) none

/-- The move assignment. -/
def moveAssign : Except Misuse (State Name) := do
  let s ← free s (s.storage x)
  return setMembers x y (setStorage y (setStorage x s (s.storage y)) none)

/-- The destructor. -/
def destroy : Except Misuse (State Name) := do
  let s ← free s (s.storage x)
  return setBuffer x s none

end Blocks

/-- A call for buffers that exist, or for a name that is not in use yet; other calls are none. -/
def step (s : State Name) : Action Name → Except Misuse (State Name)
  | .create x zeroed =>
    let member := if zeroed then some 0 else none
    if s.buffers x = none then .ok (setBuffer x s (some ⟨none, member, member, member⟩)) else .ok s
  | .reshape x T size reallocation =>
    if s.buffers x ≠ none then reshape x s T size reallocation else .ok s
  | .copy x y reallocation =>
    if s.buffers x ≠ none ∧ s.buffers y ≠ none then copy x y s reallocation else .ok s
  | .moveFrom x y =>
    if s.buffers x = none ∧ s.buffers y ≠ none then .ok (moveFrom x y s) else .ok s
  | .moveAssign x y =>
    if s.buffers x ≠ none ∧ s.buffers y ≠ none then moveAssign x y s else .ok s
  | .destroy x => if s.buffers x ≠ none then destroy x s else .ok s

/-! ## What should hold -/

/-- The exact number of bytes that a buffer describes. -/
def Buffer.exactSize (b : Buffer) : Option ℕ :=
  match b.size, b.valueSize with
  | some size, some valueSize => some (size * valueSize)
  | _, _ => none

/-- What should hold of the buffers of a program. -/
structure Owned (s : State Name) : Prop where
  /-- The sizes are initialised, and so many bytes can be read. -/
  described : ∀ x b, s.buffers x = some b → ∃ n, b.exactSize = some n ∧ n ≤ s.room x
  accounted : Accounted s.storage s.allocated s.freed
  counted : ∀ block, s.bytes block < 2 ^ 64
  /-- When there is no buffer any more, every block has been freed exactly once. -/
  atEnd : (∀ x, s.buffers x = none) → s.freed.Perm (List.range s.allocated)

/-- Whether a call returns something. -/
def Action.returns : Action Name → Prop
  | .reshape .. | .copy .. => True
  | _ => False

/-- What a call should make of the buffers. -/
structure Sound (s : State Name) (action : Action Name) (t : State Name) : Prop where
  owned : Owned t
  unchanged : action.returns → t.result = false →
    t.buffers = s.buffers ∧ t.freed = s.freed ∧ t.allocated = s.allocated

/-- A buffer is zeroed before it is constructed; the number of bytes of a reshape can be counted,
unless there is no memory; no block is freed by `realloc` for 0 bytes; and only buffers without
bytes are moved from. -/
def Careful (s : State Name) : Action Name → Prop
  | .create x zeroed => s.buffers x = none → zeroed = true
  | .reshape x T size reallocation => s.buffers x ≠ none →
    (reallocation = .moves → size * T.size < 2 ^ 64) ∧
    (reallocation = .frees → size * T.size % 2 ^ 64 = 0 → s.storage x = none)
  | .copy x y reallocation => s.buffers y ≠ none → ∀ b, s.buffers x = some b →
    reallocation = .frees → b.exactSize = some 0 → s.storage y = none
  | .moveFrom x y => s.buffers x = none → ∀ b, s.buffers y = some b → b.exactSize = some 0
  | .moveAssign x y => s.buffers x ≠ none → ∀ b, s.buffers y = some b → b.exactSize = some 0
  | .destroy _ => True

/-! ## Described buffers -/

variable {s t : State Name} {x y : Name} {b c : Buffer}

/-- The number of bytes of the block of a buffer. -/
def Buffer.extent (bytes : ℕ → ℕ) (b : Buffer) : ℕ :=
  match b.storage with
  | some block => bytes block
  | none => 0

def Described (bytes : ℕ → ℕ) (b : Buffer) : Prop := ∃ n, b.exactSize = some n ∧ n ≤ b.extent bytes

omit [DecidableEq Name] in
theorem storage_eq (hx : s.buffers x = some b) : s.storage x = b.storage := by
  rw [State.storage, hx]
  rfl

omit [DecidableEq Name] in
theorem storage_eq_none (hx : s.buffers x = none) : s.storage x = none := by
  rw [State.storage, hx]
  rfl

omit [DecidableEq Name] in
theorem room_eq (h : Accounted s.storage s.allocated s.freed) (hx : s.buffers x = some b) :
    s.room x = b.extent s.bytes := by
  rw [State.room, storage_eq hx, Buffer.extent]
  cases hstorage : b.storage with
  | none => rfl
  | some block => exact if_neg (h.alive x block ((storage_eq hx).trans hstorage)).2

/-- What a call keeps of the buffers. -/
structure Kept (s : State Name) : Prop where
  described : ∀ x b, s.buffers x = some b → Described s.bytes b
  accounted : Accounted s.storage s.allocated s.freed
  counted : ∀ block, s.bytes block < 2 ^ 64

omit [DecidableEq Name] in
theorem Owned.kept (h : Owned s) : Kept s where
  described := fun x b hx => by
    obtain ⟨n, hn, hle⟩ := h.described x b hx
    exact ⟨n, hn, by rwa [room_eq h.accounted hx] at hle⟩
  accounted := h.accounted
  counted := h.counted

omit [DecidableEq Name] in
theorem Kept.owned (h : Kept s) : Owned s where
  described := fun x b hx => by
    obtain ⟨n, hn, hle⟩ := h.described x b hx
    exact ⟨n, hn, by rwa [room_eq h.accounted hx]⟩
  accounted := h.accounted
  counted := h.counted
  atEnd := fun hnone => h.accounted.atEnd fun x => storage_eq_none (hnone x)

theorem storage_update {buffer : Option Buffer}
    (h : t.buffers = Function.update s.buffers x buffer) :
    t.storage = Function.update s.storage x (buffer.bind Buffer.storage) := by
  funext z
  by_cases hzx : z = x
  · rw [hzx, State.storage, h, Function.update_self, Function.update_self]
  · rw [State.storage, h, Function.update_of_ne hzx, Function.update_of_ne hzx]
    rfl

omit [DecidableEq Name] in
/-- A block that is new is not that of a buffer. -/
theorem Kept.extent_update (h : Kept s) (hx : s.buffers x = some b) (size : ℕ) :
    b.extent (Function.update s.bytes s.allocated size) = b.extent s.bytes := by
  rw [Buffer.extent, Buffer.extent]
  cases hstorage : b.storage with
  | none => rfl
  | some block =>
    have hlt := (h.accounted.alive x block ((storage_eq hx).trans hstorage)).1
    exact Function.update_of_ne hlt.ne _ _

/-- One buffer changes, and blocks of others keep their numbers of bytes. -/
theorem described_update {bytes : ℕ → ℕ} {buffer : Option Buffer}
    (h : ∀ z b, z ≠ x → s.buffers z = some b → Described bytes b)
    (hbuffer : ∀ b, buffer = some b → Described bytes b)
    (hbuffers : t.buffers = Function.update s.buffers x buffer) :
    ∀ z b, t.buffers z = some b → Described bytes b := by
  intro z b hz
  rw [hbuffers] at hz
  by_cases hzx : z = x
  · rw [hzx, Function.update_self] at hz
    exact hbuffer b hz
  · rw [Function.update_of_ne hzx] at hz
    exact h z b hzx hz

omit [DecidableEq Name] in
theorem described_of_zero {bytes : ℕ → ℕ} (h : b.exactSize = some 0) : Described bytes b :=
  ⟨0, h, Nat.zero_le _⟩

omit [DecidableEq Name] in
theorem exactSize_of_described {bytes : ℕ → ℕ} (h : Described bytes b) (hnone : b.storage = none) :
    b.exactSize = some 0 := by
  obtain ⟨n, hn, hle⟩ := h
  rw [Buffer.extent, hnone] at hle
  rw [hn, Nat.le_zero.mp hle]

omit [DecidableEq Name] in
theorem bytesSize_eq {n : ℕ} (hx : s.buffers x = some b) (hn : b.exactSize = some n) :
    bytesSize x s = .ok (n % 2 ^ 64) := by
  obtain ⟨storage, size, valueSize, valueType⟩ := b
  cases size with
  | none => cases hn
  | some size =>
    cases valueSize with
    | none => cases hn
    | some valueSize =>
      obtain rfl := Option.some.inj hn
      rw [bytesSize, hx]
      rfl

/-! ## Calls -/

omit [DecidableEq Name] in
theorem Kept.free (h : Kept s) (x : Name) :
    ∃ t, free s (s.storage x) = .ok t ∧ t.buffers = s.buffers ∧ t.bytes = s.bytes ∧
      t.allocated = s.allocated ∧ t.freed = s.freed ++ (s.storage x).toList := by
  cases hx : s.storage x with
  | none => exact ⟨s, rfl, rfl, rfl, rfl, (List.append_nil s.freed).symm⟩
  | some block =>
    exact ⟨_, if_neg (h.accounted.alive x block hx).2, rfl, rfl, rfl, rfl⟩

/-- The block of a buffer is freed. -/
theorem Kept.accounted_free (h : Kept s) (x : Name) :
    Accounted (Function.update s.storage x none) s.allocated
      (s.freed ++ (s.storage x).toList) := by
  cases hx : s.storage x with
  | none =>
    rw [← hx, Function.update_eq_self, hx, Option.toList_none, List.append_nil]
    exact h.accounted
  | some block => exact h.accounted.destruct hx

omit [DecidableEq Name] in
theorem Kept.extent_lt (h : Kept s) (b : Buffer) : b.extent s.bytes < 2 ^ 64 := by
  rw [Buffer.extent]
  split
  next block _ => exact h.counted block
  next => exact Nat.two_pow_pos 64

/-- What becomes of a buffer that gets another block. -/
theorem Kept.resize_moves (h : Kept s) (hx : s.buffers x = some b) (size : ℕ) :
    ∃ t, resize x s size .moves = .ok (true, t) ∧
      t.buffers = Function.update s.buffers x (some { b with storage := some s.allocated }) ∧
      t.bytes = Function.update s.bytes s.allocated size ∧
      Accounted (Function.update s.storage x (some s.allocated)) t.allocated t.freed := by
  obtain ⟨s', hs', hbuffers, hbytes, hallocated, hfreed⟩ := h.free x
  refine ⟨{ setStorage x s' (some s'.allocated) with
    bytes := Function.update s'.bytes s'.allocated size
    allocated := s'.allocated + 1 }, ?_, ?_, ?_, ?_⟩
  · rw [resize]
    simp only [hs']
    rfl
  · change Function.update s'.buffers x _ = _
    rw [hbuffers, hx, hallocated]
    rfl
  · rw [hbytes, hallocated]
  · have haccounted := (h.accounted_free x).construct (Function.update_self x none s.storage)
    rw [Function.update_idem] at haccounted
    change Accounted _ (s'.allocated + 1) s'.freed
    rwa [hallocated, hfreed]

/-- A buffer describes its new block. -/
theorem Kept.reallocated {size : ℕ} (h : Kept s)
    (hbuffers : t.buffers = Function.update s.buffers x (some c))
    (hbytes : t.bytes = Function.update s.bytes s.allocated size) (hsize : size < 2 ^ 64)
    (haccounted : Accounted (Function.update s.storage x (some s.allocated)) t.allocated t.freed)
    (hstorage : c.storage = some s.allocated) {n : ℕ} (hn : c.exactSize = some n)
    (hle : n ≤ size) : Kept t where
  described := by
    refine described_update (x := x) (s := s) (fun z b _ hz => ?_) (fun b hb => ?_) hbuffers
    · obtain ⟨n, hn, hle⟩ := h.described z b hz
      refine ⟨n, hn, ?_⟩
      rwa [hbytes, h.extent_update hz]
    · obtain rfl := Option.some.inj hb
      refine ⟨n, hn, ?_⟩
      rw [Buffer.extent, hstorage, hbytes]
      change n ≤ Function.update s.bytes s.allocated size s.allocated
      rwa [Function.update_self]
  accounted := by
    rw [storage_update hbuffers, Option.bind_some, hstorage]
    exact haccounted
  counted := fun block => by
    rw [hbytes]
    by_cases hblock : block = s.allocated
    · rwa [hblock, Function.update_self]
    · rw [Function.update_of_ne hblock]
      exact h.counted block

omit [DecidableEq Name] in
/-- What has been returned is not part of what is kept. -/
theorem Kept.returned (h : Kept s) (result : Bool) : Kept { s with result := result } where
  described := h.described
  accounted := h.accounted
  counted := h.counted

/-- A call that returns false, and leaves the buffers as they are. -/
theorem Kept.fails (h : Kept s) (x : Name) (size : ℕ) {reallocation : Reallocation}
    (hmoves : reallocation ≠ .moves)
    (hfrees : reallocation = .frees → size = 0 → s.storage x = none) :
    resize x s size reallocation = .ok (false, s) := by
  obtain ⟨s', hs', -⟩ := h.free x
  cases reallocation with
  | moves => exact absurd rfl hmoves
  | fails =>
    rw [resize]
    simp only [hs']
    rfl
  | frees =>
    rw [resize]
    by_cases hsize : size = 0
    · have hnone := hfrees rfl hsize
      rw [hnone]
      simp only [hsize, if_true]
      rfl
    · simp only [hs', if_neg hsize]
      rfl

theorem Kept.reshape (h : Kept s) (hx : s.buffers x = some b) (T : Scalar) (size : ℕ)
    (reallocation : Reallocation) (hcareful : Careful s (.reshape x T size reallocation)) :
    ∃ t, reshape x s T size reallocation = .ok t ∧ Kept t ∧
      (t.result = false → t.buffers = s.buffers ∧ t.freed = s.freed ∧ t.allocated = s.allocated) := by
  obtain ⟨hmoves, hfrees⟩ := hcareful (by rw [hx]; exact Option.some_ne_none b)
  by_cases hrealloc : reallocation = .moves
  · subst hrealloc
    have hsize := hmoves rfl
    obtain ⟨s', hs', hbuffers, hbytes, haccounted⟩ := h.resize_moves hx (size * T.size % 2 ^ 64)
    rw [Nat.mod_eq_of_lt hsize] at hs' hbytes
    let c : Buffer := ⟨some s.allocated, some size, some T.size, some T.type⟩
    have hbuffers' : Function.update s'.buffers x (some c) =
        Function.update s.buffers x (some c) := by rw [hbuffers, Function.update_idem]
    refine ⟨{ setBuffer x s' (some c) with result := true }, ?_, ?_, nofun⟩
    · rw [ScalarBuffer.reshape, Nat.mod_eq_of_lt hsize, hs']
      change Except.ok { setBuffer x s' ((s'.buffers x).map _) with result := true } = _
      rw [hbuffers, Function.update_self]
      rfl
    · exact h.reallocated hbuffers' hbytes hsize haccounted rfl rfl (Nat.le_refl _)
  · refine ⟨{ s with result := false }, ?_, h.returned false, fun _ => ⟨rfl, rfl, rfl⟩⟩
    rw [ScalarBuffer.reshape, h.fails x _ hrealloc hfrees]
    rfl

theorem Kept.copy (h : Kept s) (hx : s.buffers x = some b) (hy : s.buffers y = some c)
    (reallocation : Reallocation) (hcareful : Careful s (.copy x y reallocation)) :
    ∃ t, copy x y s reallocation = .ok t ∧ Kept t ∧
      (t.result = false → t.buffers = s.buffers ∧ t.freed = s.freed ∧ t.allocated = s.allocated) := by
  obtain ⟨n, hn, hle⟩ := h.described x b hx
  have hlt : n < 2 ^ 64 := hle.trans_lt (h.extent_lt b)
  have hbytesSize : bytesSize x s = .ok n := by rw [bytesSize_eq hx hn, Nat.mod_eq_of_lt hlt]
  by_cases hrealloc : reallocation = .moves
  · subst hrealloc
    obtain ⟨s', hs', hbuffers, hbytes, haccounted⟩ := h.resize_moves hy n
    have haccounted' : Accounted s'.storage s'.allocated s'.freed := by
      rwa [storage_update hbuffers]
    have hself : s'.buffers y = some { c with storage := some s.allocated } := by
      rw [hbuffers, Function.update_self]
    have hroom : s'.room y = n := by
      rw [room_eq haccounted' hself, Buffer.extent, hbytes]
      exact Function.update_self ..
    -- The first buffer has its sizes still, and bytes enough.
    have hin : ∃ b', s'.buffers x = some b' ∧ b'.size = b.size ∧ b'.valueSize = b.valueSize ∧
        b'.valueType = b.valueType ∧ n ≤ s'.room x := by
      by_cases hxy : x = y
      · subst hxy
        obtain rfl := Option.some.inj (hx.symm.trans hy)
        exact ⟨_, hself, rfl, rfl, rfl, hroom.ge⟩
      · have hx' : s'.buffers x = some b := by rw [hbuffers, Function.update_of_ne hxy, hx]
        refine ⟨b, hx', rfl, rfl, rfl, ?_⟩
        rwa [room_eq haccounted' hx', hbytes, h.extent_update hx]
    obtain ⟨b', hx', hsize', hvalueSize', hvalueType', hle'⟩ := hin
    let d : Buffer := ⟨some s.allocated, b.size, b.valueSize, b.valueType⟩
    have hbuffers' : Function.update s'.buffers y (some d) =
        Function.update s.buffers y (some d) := by rw [hbuffers, Function.update_idem]
    refine ⟨{ setBuffer y s' (some d) with result := true }, ?_, ?_, nofun⟩
    · rw [ScalarBuffer.copy, hbytesSize]
      change (resize y s n .moves >>= _) = _
      rw [hs']
      change (memcpy x y s' n >>= _) = _
      rw [memcpy, if_pos ⟨hle', hroom.ge⟩]
      change Except.ok { setMembers y x s' with result := true } = _
      rw [setMembers, hself, hx', Option.map_some, Option.bind_some, Option.bind_some,
        Option.bind_some, hsize', hvalueSize', hvalueType']
    · exact h.reallocated hbuffers' hbytes hlt haccounted rfl hn (Nat.le_refl n)
  · have hfrees : reallocation = .frees → n = 0 → s.storage y = none := fun hr hzero =>
      hcareful (by rw [hy]; exact Option.some_ne_none c) b hx hr (by rw [hn, hzero])
    refine ⟨{ s with result := false }, ?_, h.returned false, fun _ => ⟨rfl, rfl, rfl⟩⟩
    rw [ScalarBuffer.copy, hbytesSize]
    change (resize y s n reallocation >>= _) = _
    rw [h.fails y n hrealloc hfrees]
    rfl

/-- A buffer takes what another one has, which is left with its sizes. -/
theorem Kept.taken (h : Kept s) (hy : s.buffers y = some c) (hzero : c.exactSize = some 0)
    (hbuffers : t.buffers = Function.update (Function.update s.buffers x (some c)) y
      (some { c with storage := none }))
    (hbytes : t.bytes = s.bytes)
    (haccounted : Accounted (Function.update (Function.update s.storage x c.storage) y none)
      t.allocated t.freed) : Kept t where
  described := by
    rw [hbytes]
    let s' : State Name := setBuffer x s (some c)
    refine described_update (x := y) (s := s') (fun z b _ hz => ?_) (fun b hb => ?_) hbuffers
    · refine described_update (x := x) (s := s) (t := s') (fun w d _ hw => h.described w d hw)
        (fun d hd => ?_) rfl z b hz
      exact h.described y d (hy.trans hd)
    · obtain rfl := Option.some.inj hb
      exact described_of_zero hzero
  accounted := by
    have hstorage : t.storage = Function.update (setBuffer x s (some c)).storage y none :=
      storage_update (s := setBuffer x s (some c)) hbuffers
    have hstorage' : (setBuffer x s (some c)).storage = Function.update s.storage x c.storage :=
      storage_update (s := s) (t := setBuffer x s (some c)) rfl
    rwa [hstorage, hstorage']
  counted := by
    rw [hbytes]
    exact h.counted

theorem Kept.moveFrom (h : Kept s) (hx : s.buffers x = none) (hy : s.buffers y = some c)
    (hzero : c.exactSize = some 0) : Kept (moveFrom x y s) := by
  have hyx : y ≠ x := by
    rintro rfl
    rw [hx] at hy
    cases hy
  refine h.taken (x := x) hy hzero ?_ rfl ?_
  · change Function.update (Function.update s.buffers x (s.buffers y)) y
      ((Function.update s.buffers x (s.buffers y) y).map _) = _
    rw [Function.update_of_ne hyx, hy]
    rfl
  · have hmove := h.accounted.move (storage_eq_none hx) y
    rwa [storage_eq hy] at hmove

theorem Kept.moveAssign (h : Kept s) (hx : s.buffers x = some b) (hy : s.buffers y = some c)
    (hzero : c.exactSize = some 0) : ∃ t, moveAssign x y s = .ok t ∧ Kept t := by
  obtain ⟨s', hs', hbuffers, hbytes, hallocated, hfreed⟩ := h.free x
  refine ⟨setMembers x y (setStorage y (setStorage x s' (s'.storage y)) none),
    by rw [ScalarBuffer.moveAssign, hs']; rfl, h.taken (x := x) hy hzero ?_ hbytes ?_⟩
  · funext z
    simp only [setMembers, setBuffer, setStorage, State.storage, hbuffers, hx, hy, Option.map_some,
      Option.bind_some]
    by_cases hzy : z = y
    · subst hzy
      by_cases hzx : z = x
      · subst hzx
        obtain rfl := Option.some.inj (hx.symm.trans hy)
        simp only [Function.update_self, Option.map_some, Option.bind_some]
      · simp only [Function.update_self, Function.update_of_ne hzx, hy, Option.map_some]
    · by_cases hzx : z = x
      · subst hzx
        simp only [Function.update_self, Function.update_of_ne hzy, Function.update_of_ne (Ne.symm hzy),
          hy, Option.map_some, Option.bind_some]
      · simp only [Function.update_of_ne hzx, Function.update_of_ne hzy]
  · have hmove := (h.accounted_free x).move (Function.update_self x none s.storage) y
    change Accounted _ s'.allocated s'.freed
    rw [hallocated, hfreed]
    by_cases hyx : y = x
    · subst hyx
      rw [Function.update_idem] at hmove ⊢
      rwa [Function.update_idem] at hmove
    · rwa [Function.update_of_ne hyx, Function.update_idem, storage_eq hy] at hmove

/-- A block is freed with its buffer. -/
theorem Kept.destroy (h : Kept s) (x : Name) : ∃ t, destroy x s = .ok t ∧ Kept t := by
  obtain ⟨s', hs', hbuffers, hbytes, hallocated, hfreed⟩ := h.free x
  have hgone : (setBuffer x s' none).buffers = Function.update s.buffers x none := by
    rw [← hbuffers]
    rfl
  refine ⟨setBuffer x s' none, by rw [ScalarBuffer.destroy, hs']; rfl, ?_, ?_, fun block => ?_⟩
  · change ∀ z b, (setBuffer x s' none).buffers z = some b → Described s'.bytes b
    rw [hbytes]
    have hnone : ∀ b, (none : Option Buffer) = some b → Described s.bytes b := nofun
    exact described_update (fun z b _ hz => h.described z b hz) hnone hgone
  · rw [storage_update hgone]
    change Accounted _ s'.allocated s'.freed
    rw [hallocated, hfreed]
    exact h.accounted_free x
  · change s'.bytes block < _
    rw [hbytes]
    exact h.counted block

/-- A buffer that is zeroed describes no bytes. -/
theorem Kept.create (h : Kept s) (hx : s.buffers x = none) :
    Kept (setBuffer x s (some ⟨none, some 0, some 0, some 0⟩)) where
  described := described_update (x := x) (s := s) (fun z b _ hz => h.described z b hz)
    (fun b hb => by
      obtain rfl := Option.some.inj hb
      exact described_of_zero rfl) rfl
  accounted := by
    have hstorage : (setBuffer x s (some ⟨none, some 0, some 0, some 0⟩)).storage =
        Function.update s.storage x none :=
      storage_update (s := s) (t := setBuffer x s (some ⟨none, some 0, some 0, some 0⟩)) rfl
    rw [hstorage, ← storage_eq_none hx, Function.update_eq_self]
    exact h.accounted
  counted := h.counted

/-! ## Runs -/

omit [DecidableEq Name] in
theorem owned_initial : Owned (State.initial : State Name) where
  described := fun _ _ => nofun
  accounted := ⟨List.nodup_nil, fun _ _ => nofun, fun _ _ _ => nofun,
    fun _ hv => absurd hv List.not_mem_nil, fun _ hv => absurd hv (Nat.not_lt_zero _)⟩
  counted := fun _ => Nat.two_pow_pos 64
  atEnd := fun _ => List.Perm.refl []

omit [DecidableEq Name] in
theorem Kept.sound {action : Action Name} (h : Kept t) (hreturns : ¬ action.returns) :
    Sound s action t where
  owned := h.owned
  unchanged := fun h => absurd h hreturns

omit [DecidableEq Name] in
theorem Owned.sound_same (h : Owned s) (action : Action Name) : Sound s action s where
  owned := h
  unchanged := fun _ _ => ⟨rfl, rfl, rfl⟩

/-- A careful call does what it should. -/
theorem Owned.step (h : Owned s) {action : Action Name} (hcareful : Careful s action) :
    ∃ t, step s action = .ok t ∧ Sound s action t := by
  cases action with
  | create x zeroed =>
    rw [ScalarBuffer.step]
    split
    next hx =>
      obtain rfl := hcareful hx
      exact ⟨_, rfl, (h.kept.create hx).sound id⟩
    next => exact ⟨s, rfl, h.sound_same _⟩
  | reshape x T size reallocation =>
    rw [ScalarBuffer.step]
    split
    next hx =>
      obtain ⟨b, hb⟩ := Option.ne_none_iff_exists'.mp hx
      obtain ⟨t, ht, hkept, hunchanged⟩ := h.kept.reshape hb T size reallocation hcareful
      exact ⟨t, ht, hkept.owned, fun _ => hunchanged⟩
    next => exact ⟨s, rfl, h.sound_same _⟩
  | copy x y reallocation =>
    rw [ScalarBuffer.step]
    split
    next hxy =>
      obtain ⟨b, hb⟩ := Option.ne_none_iff_exists'.mp hxy.1
      obtain ⟨c, hc⟩ := Option.ne_none_iff_exists'.mp hxy.2
      obtain ⟨t, ht, hkept, hunchanged⟩ := h.kept.copy hb hc reallocation hcareful
      exact ⟨t, ht, hkept.owned, fun _ => hunchanged⟩
    next => exact ⟨s, rfl, h.sound_same _⟩
  | moveFrom x y =>
    rw [ScalarBuffer.step]
    split
    next hxy =>
      obtain ⟨c, hc⟩ := Option.ne_none_iff_exists'.mp hxy.2
      exact ⟨_, rfl, (h.kept.moveFrom hxy.1 hc (hcareful hxy.1 c hc)).sound id⟩
    next => exact ⟨s, rfl, h.sound_same _⟩
  | moveAssign x y =>
    rw [ScalarBuffer.step]
    split
    next hxy =>
      obtain ⟨b, hb⟩ := Option.ne_none_iff_exists'.mp hxy.1
      obtain ⟨c, hc⟩ := Option.ne_none_iff_exists'.mp hxy.2
      obtain ⟨t, ht, hkept⟩ := h.kept.moveAssign hb hc (hcareful hxy.1 c hc)
      exact ⟨t, ht, hkept.sound id⟩
    next => exact ⟨s, rfl, h.sound_same _⟩
  | destroy x =>
    rw [ScalarBuffer.step]
    split
    next hx =>
      obtain ⟨t, ht, hkept⟩ := h.kept.destroy x
      exact ⟨t, ht, hkept.sound id⟩
    next => exact ⟨s, rfl, h.sound_same _⟩

omit [DecidableEq Name] in
/-- Only a buffer without a block has nothing freed. -/
theorem Owned.storage_eq_none (h : Owned s) {s' : State Name}
    (hs' : free s (s.storage y) = .ok s') (hsame : s'.freed = s.freed) : s.storage y = none := by
  obtain ⟨t, ht, -, -, -, hfreed⟩ := h.kept.free y
  obtain rfl := Except.ok.inj (hs'.symm.trans ht)
  exact Option.toList_eq_nil_iff.mp (List.append_right_eq_self.mp (hfreed.symm.trans hsame))

/-- A new block has the bytes that are described only if their number can be counted. -/
theorem Owned.counted_of_described (h : Owned s) (hb : s.buffers x = some b) {T : Scalar} {size : ℕ}
    (ht : reshape x s T size .moves = .ok t)
    (hdescribed : ∀ z c, t.buffers z = some c → Described t.bytes c) : size * T.size < 2 ^ 64 := by
  obtain ⟨s', hs', hbuffers, hbytes, -⟩ := h.kept.resize_moves hb (size * T.size % 2 ^ 64)
  rw [reshape, hs'] at ht
  obtain rfl := Except.ok.inj ht
  have hself : Function.update s'.buffers x ((s'.buffers x).map fun b =>
      ⟨b.storage, some size, some T.size, some T.type⟩) x =
      some ⟨some s.allocated, some size, some T.size, some T.type⟩ := by
    rw [Function.update_self, hbuffers, Function.update_self]
    rfl
  obtain ⟨n, hn, hle⟩ := hdescribed x _ hself
  obtain rfl := Option.some.inj hn
  change _ ≤ s'.bytes s.allocated at hle
  rw [hbytes, Function.update_self] at hle
  exact hle.trans_lt (Nat.mod_lt _ (Nat.two_pow_pos 64))

omit [DecidableEq Name] in
/-- A buffer whose storage has been taken describes no bytes. -/
theorem exactSize_of_taken (hself : t.buffers y = some { c with storage := none })
    (hdescribed : ∀ z b, t.buffers z = some b → Described t.bytes b) : c.exactSize = some 0 := by
  have hzero : ({ c with storage := none } : Buffer).exactSize = some 0 :=
    exactSize_of_described (hdescribed y _ hself) rfl
  exact hzero

/-- A call that does what it should is careful. -/
theorem careful_of_sound (h : Owned s) {action : Action Name} (ht : step s action = .ok t)
    (hsound : Sound s action t) : Careful s action := by
  have hdescribed := hsound.owned.kept.described
  cases action with
  | create x zeroed =>
    intro hx
    rw [step, if_pos hx] at ht
    cases zeroed with
    | true => rfl
    | false =>
      obtain rfl := Except.ok.inj ht
      obtain ⟨n, hn, -⟩ := hdescribed x ⟨none, none, none, none⟩ (Function.update_self ..)
      cases hn
  | reshape x T size reallocation =>
    intro hx
    rw [step, if_pos hx] at ht
    obtain ⟨b, hb⟩ := Option.ne_none_iff_exists'.mp hx
    refine ⟨?_, ?_⟩
    · rintro rfl
      exact h.counted_of_described hb ht hdescribed
    · rintro rfl hzero
      rw [reshape, hzero] at ht
      obtain ⟨s', hs', -⟩ := h.kept.free x
      rw [resize, hs'] at ht
      obtain rfl : { s' with result := false } = t := Except.ok.inj ht
      exact h.storage_eq_none hs' (hsound.unchanged trivial rfl).2.1
  | copy x y reallocation =>
    rintro hy b hb rfl hzero
    rw [step, if_pos ⟨by rw [hb]; exact Option.some_ne_none b, hy⟩, copy,
      bytesSize_eq hb hzero] at ht
    obtain ⟨s', hs', -⟩ := h.kept.free y
    change (resize y s 0 .frees >>= _) = _ at ht
    rw [resize, hs'] at ht
    obtain rfl : { s' with result := false } = t := Except.ok.inj ht
    exact h.storage_eq_none hs' (hsound.unchanged trivial rfl).2.1
  | moveFrom x y =>
    intro hx c hy
    rw [step, if_pos ⟨hx, by rw [hy]; exact Option.some_ne_none c⟩] at ht
    obtain rfl := Except.ok.inj ht
    have hyx : y ≠ x := by
      rintro rfl
      rw [hx] at hy
      cases hy
    refine exactSize_of_taken (y := y) ?_ hdescribed
    simp only [moveFrom, setStorage, setBuffer, Function.update_self, Function.update_of_ne hyx,
      hy, Option.map_some]
  | moveAssign x y =>
    intro hx c hy
    rw [step, if_pos ⟨hx, by rw [hy]; exact Option.some_ne_none c⟩] at ht
    obtain ⟨s', hs', hbuffers, -⟩ := h.kept.free x
    rw [moveAssign, hs'] at ht
    obtain rfl := Except.ok.inj ht
    obtain ⟨b, hb⟩ := Option.ne_none_iff_exists'.mp hx
    refine exactSize_of_taken (y := y) ?_ hdescribed
    by_cases hyx : y = x
    · subst hyx
      simp only [setMembers, setBuffer, setStorage, hbuffers, hy, Function.update_self,
        Option.map_some, Option.bind_some]
    · simp only [setMembers, setBuffer, setStorage, hbuffers, hy, Function.update_self,
        Function.update_of_ne hyx, Option.map_some]
  | destroy x => exact trivial

/-- Buffers describe memory that they have, in every state of a run and with each block freed once,
exactly if every call of the run is careful. -/
theorem buffers_iff (actions : List (Action Name)) :
    RelatesAll step Sound (State.initial : State Name) actions ↔
      MeetsAll step Careful (State.initial : State Name) actions := by
  refine relatesAll_iff_meetsAll Owned owned_initial (fun h hcareful => ?_)
    (fun h ht hsound => careful_of_sound h ht hsound) actions
  obtain ⟨t, ht, hsound⟩ := h.step hcareful
  exact ⟨t, ht, hsound, hsound.owned⟩

/-- Scalars of eight bytes. -/
def double : Scalar := ⟨0, 8, by decide, by decide⟩

/-- The bytes of 2^61 scalars of eight bytes are none in 64 bits. -/
theorem not_buffers :
    ¬ RelatesAll step Sound (State.initial : State ℕ)
      [.create 0 true, .reshape 0 double (2 ^ 61) .moves] := by
  rintro ⟨s, hs, -, t, ht, hsound, -⟩
  obtain rfl := Except.ok.inj hs
  obtain rfl := Except.ok.inj ht
  obtain ⟨n, hn, hle⟩ := hsound.owned.described 0 _ rfl
  obtain rfl := Option.some.inj hn
  exact absurd hle (by decide)

end Fimbulwinter.ScalarBuffer
