import Fimbulwinter.HeapVector
import Fimbulwinter.TransitionRuns
import Mathlib.Logic.Function.Basic

/-! # Containers with dynamic storage

The blocks that containers get from their allocator and give back, as `basic_container` and
`vector_data` do it without debug checks. A container is anything with a name; the elements of
a vector of containers have names of their own. -/
namespace Fimbulwinter.DynamicStorage

variable {Name : Type*}

/-- What must not happen to a block. -/
inductive Misuse
  | returnedTwice
  | wrongCapacity
  deriving DecidableEq, Repr

/-- `vector_data`, with `cap_` and `end_` as indices. -/
structure VectorData where
  storage : Option ℕ
  cap : ℕ
  size : ℕ
  deriving DecidableEq, Repr

structure State (Name : Type*) where
  containers : Name → Option VectorData
  /-- The capacities of the blocks that the allocator has given out and not got back. -/
  blocks : ℕ → Option ℕ
  /-- The next block that the allocator gives out. -/
  next : ℕ

def State.initial : State Name := ⟨fun _ => none, fun _ => none, 0⟩

/-- Operations of a program. Whether the allocator gives out a block is part of the operation. -/
inductive Action (Name : Type*)
  | construct (n : Name) (minCapacity : ℕ) (granted : Bool)
  | copyConstruct (n other : Name) (granted : Bool)
  | moveConstruct (n other : Name)
  | copyAssign (n other : Name) (granted : Bool)
  | moveAssign (n other : Name)
  /-- `std::swap` with its temporary. -/
  | swap (n other temporary : Name)
  | reserve (n : Name) (minCapacity : ℕ) (granted : Bool)
  | resize (n : Name) (size : ℕ) (granted : Bool)
  | emplaceBack (n : Name) (granted : Bool)
  /-- `erase` of an element, with the element and the last one if they are containers. -/
  | erase (n : Name) (elements : Option (Name × Name))
  | clear (n : Name)
  | destruct (n : Name)

section Step

variable [DecidableEq Name] (reservation : ℕ → ℕ)

def State.set (s : State Name) (n : Name) (v : Option VectorData) : State Name :=
  { s with containers := Function.update s.containers n v }

/-- The allocator gives out its next block. -/
def State.grant (s : State Name) (capacity : ℕ) : State Name :=
  { s with blocks := Function.update s.blocks s.next (some capacity), next := s.next + 1 }

/-- The deallocation in `dynamic_storage_impl`; the pointer stays as it is. -/
def deallocate (s : State Name) (block capacity : ℕ) : Except Misuse (State Name) :=
  match s.blocks block with
  | none => .error .returnedTwice
  | some c =>
    if c = capacity then .ok { s with blocks := Function.update s.blocks block none }
    else .error .wrongCapacity

/-- The elements are destructed, which is left out here, and the block is returned. -/
def purge (s : State Name) (v : VectorData) : Except Misuse (State Name) :=
  match v.storage with
  | none => .ok s
  | some block => deallocate s block v.cap

/-- A new block, or what `release` makes of the container when there is none. -/
def allocate (s : State Name) (capacity : ℕ) (granted : Bool) : State Name × VectorData × Bool :=
  if granted then (s.grant capacity, ⟨some s.next, capacity, 0⟩, true)
  else (s, ⟨none, 0, 0⟩, false)

def release (s : State Name) (n : Name) : State Name :=
  match s.containers n with
  | none => s
  | some v => s.set n (some { v with cap := 0, size := 0 })

/-- The members of `other`, which is `w`, are moved to `n`, its pointer by `std::exchange`. -/
def moveMembers (s : State Name) (n other : Name) (w : VectorData) : State Name :=
  release ((s.set other (some { w with storage := none })).set n (some w)) other

/-- `try_reallocate_impl` -/
def reallocate (s : State Name) (n : Name) (v : VectorData) (minCapacity : ℕ) (granted : Bool) :
    Except Misuse (State Name × VectorData × Bool) :=
  if reservation minCapacity < minCapacity then .ok (s, v, false)
  else
    match allocate s (reservation minCapacity) granted with
    | (_, _, false) => .ok (s, v, false)
    | (s, data, true) =>
      match purge s v with
      | .error e => .error e
      | .ok s => .ok (s.set n (some { data with size := v.size }), { data with size := v.size }, true)

def moveConstruct (s : State Name) (n other : Name) : State Name :=
  match s.containers n, s.containers other with
  | none, some w => moveMembers s n other w
  | _, _ => s

def moveAssign (s : State Name) (n other : Name) : Except Misuse (State Name) :=
  match s.containers n, s.containers other with
  | some v, some w =>
    match purge s v with
    | .error e => .error e
    | .ok s => .ok (moveMembers s n other w)
  | _, _ => .ok s

def destruct (s : State Name) (n : Name) : Except Misuse (State Name) :=
  match s.containers n with
  | none => .ok s
  | some v =>
    match purge s v with
    | .error e => .error e
    | .ok s => .ok (s.set n none)

/-- A step of a program; one that uses names wrongly is none of a program and does nothing. -/
def step (s : State Name) : Action Name → Except Misuse (State Name)
  | .construct n minCapacity granted =>
    match s.containers n with
    | some _ => .ok s
    | none =>
      match allocate s (reservation minCapacity) granted with
      | (s, v, _) => .ok (s.set n (some v))
  | .copyConstruct n other granted =>
    match s.containers n, s.containers other with
    | none, some w =>
      match allocate s (reservation w.size) granted with
      | (s, v, true) => .ok (s.set n (some { v with size := w.size }))
      | (s, v, false) => .ok (s.set n (some v))
    | _, _ => .ok s
  | .moveConstruct n other => .ok (moveConstruct s n other)
  | .copyAssign n other granted =>
    match s.containers n, s.containers other with
    | some v, some w =>
      if w.size ≤ v.cap then .ok (s.set n (some { v with size := w.size }))
      else
        match purge s v with
        | .error e => .error e
        | .ok s =>
          match allocate s (reservation w.size) granted with
          | (s, v, true) => .ok (s.set n (some { v with size := w.size }))
          | (s, v, false) => .ok (s.set n (some v))
    | _, _ => .ok s
  | .moveAssign n other => moveAssign s n other
  | .swap n other temporary =>
    match s.containers n, s.containers other, s.containers temporary with
    | some _, some _, none =>
      match moveAssign (moveConstruct s temporary n) n other with
      | .error e => .error e
      | .ok s =>
        match moveAssign s other temporary with
        | .error e => .error e
        | .ok s => destruct s temporary
    | _, _, _ => .ok s
  | .reserve n minCapacity granted =>
    match s.containers n with
    | none => .ok s
    | some v =>
      if minCapacity ≤ v.cap then .ok s
      else
        match reallocate reservation s n v minCapacity granted with
        | .error e => .error e
        | .ok (s, _, _) => .ok s
  | .resize n size granted =>
    match s.containers n with
    | none => .ok s
    | some v =>
      if size < v.size ∨ size ≤ v.cap then .ok (s.set n (some { v with size := size }))
      else
        match reallocate reservation s n v size granted with
        | .error e => .error e
        | .ok (s, _, false) => .ok s
        | .ok (s, v, true) => .ok (s.set n (some { v with size := size }))
  | .emplaceBack n granted =>
    match s.containers n with
    | none => .ok s
    | some v =>
      if v.size ≠ v.cap ∨ v.size + 1 ≤ v.cap then
        .ok (s.set n (some { v with size := v.size + 1 }))
      else
        match reallocate reservation s n v (v.size + 1) granted with
        | .error e => .error e
        | .ok (s, _, false) => .ok s
        | .ok (s, v, true) => .ok (s.set n (some { v with size := v.size + 1 }))
  | .erase n elements =>
    match s.containers n with
    | none => .ok s
    | some v =>
      match elements with
      | none => .ok (s.set n (some { v with size := v.size - 1 }))
      | some (it, last) =>
        match moveAssign s it last with
        | .error e => .error e
        | .ok s =>
          match destruct s last with
          | .error e => .error e
          | .ok s =>
            match s.containers n with
            | none => .ok s
            | some v => .ok (s.set n (some { v with size := v.size - 1 }))
  | .clear n =>
    match s.containers n with
    | none => .ok s
    | some v => .ok (s.set n (some { v with size := 0 }))
  | .destruct n => destruct s n

end Step

/-- Every block that has not been returned belongs to one container, which knows its capacity,
and no container has a pointer to any other block. -/
structure Owned (s : State Name) : Prop where
  pointers : ∀ n v b, s.containers n = some v → v.storage = some b → s.blocks b = some v.cap
  unique : ∀ n n' v v' b, s.containers n = some v → s.containers n' = some v' →
    v.storage = some b → v'.storage = some b → n = n'
  owned : ∀ b c, s.blocks b = some c → ∃ n v, s.containers n = some v ∧ v.storage = some b
  fresh : ∀ b, s.next ≤ b → s.blocks b = none

/-- No container with a block is moved onto itself. -/
def NoSelfMove [DecidableEq Name] (s : State Name) : Action Name → Prop
  | .moveAssign n other => n = other → ∀ v, s.containers n = some v → v.storage = none
  | .erase n (some (it, last)) => s.containers n ≠ none → it = last →
    ∀ v, s.containers it = some v → v.storage = none
  | _ => True

section Owned

variable [DecidableEq Name] {s : State Name} {n other : Name} {v w : VectorData}

theorem State.set_apply (s : State Name) (n m : Name) (v : Option VectorData) :
    (s.set n v).containers m = if m = n then v else s.containers m :=
  Function.update_apply s.containers n v m

theorem State.set_set (s : State Name) (n : Name) (v w : Option VectorData) :
    (s.set n v).set n w = s.set n w := by
  rw [State.set, State.set, State.set, Function.update_idem]

theorem State.set_comm (s : State Name) {n m : Name} (h : n ≠ m) (v w : Option VectorData) :
    (s.set n v).set m w = (s.set m w).set n v := by
  rw [State.set, State.set, State.set, State.set, Function.update_comm h]

omit [DecidableEq Name] in
theorem Owned.initial : Owned (State.initial : State Name) where
  pointers := fun _ _ _ h => by cases h
  unique := fun _ _ _ _ _ h => by cases h
  owned := fun _ _ h => by cases h
  fresh := fun _ _ => rfl

/-- A block goes with its container. -/
theorem Owned.purge (h : Owned s) (hv : s.containers n = some v) :
    ∃ s', purge s v = .ok s' ∧ s'.containers = s.containers ∧ Owned (s'.set n none) ∧
      ∀ c, DynamicStorage.purge (s.grant c) v = .ok (s'.grant c) := by
  have hother : ∀ {m u}, (s.set n none).containers m = some u →
      m ≠ n ∧ s.containers m = some u := by
    intro m u hm
    rw [State.set_apply] at hm
    split_ifs at hm with hne
    exact ⟨hne, hm⟩
  cases hstorage : v.storage with
  | none =>
    refine ⟨s, by rw [DynamicStorage.purge, hstorage], rfl, ?_, fun c => by
      rw [DynamicStorage.purge, hstorage]⟩
    exact
      { pointers := fun m u b hm hb => h.pointers m u b (hother hm).2 hb
        unique := fun m m' u u' b hm hm' => h.unique m m' u u' b (hother hm).2 (hother hm').2
        owned := fun b c hb => by
          obtain ⟨m, u, hm, hu⟩ := h.owned b c hb
          refine ⟨m, u, ?_, hu⟩
          rw [State.set_apply, if_neg, hm]
          rintro rfl
          obtain rfl := Option.some.inj (hm.symm.trans hv)
          rw [hstorage] at hu
          cases hu
        fresh := h.fresh }
  | some b =>
    have hb := h.pointers n v b hv hstorage
    have hne : b ≠ s.next := by
      rintro rfl
      rw [h.fresh s.next (Nat.le_refl _)] at hb
      cases hb
    refine ⟨{ s with blocks := Function.update s.blocks b none }, ?_, rfl, ?_, fun c => ?_⟩
    · simp only [DynamicStorage.purge, hstorage, deallocate, hb, if_true]
    · exact
        { pointers := by
            intro m u b' hm hb'
            obtain ⟨hmn, hm'⟩ := hother hm
            have hne' : b' ≠ b := by
              rintro rfl
              exact hmn (h.unique m n u v b' hm' hv hb' hstorage)
            exact (Function.update_of_ne hne' _ _).trans (h.pointers m u b' hm' hb')
          unique := fun m m' u u' b hm hm' => h.unique m m' u u' b (hother hm).2 (hother hm').2
          owned := by
            intro b' c hb'
            have hne' : b' ≠ b := by
              rintro rfl
              exact absurd hb' (by simp [State.set])
            obtain ⟨m, u, hm, hu⟩ := h.owned b' c ((Function.update_of_ne hne' _ _).symm.trans hb')
            refine ⟨m, u, ?_, hu⟩
            rw [State.set_apply, if_neg, hm]
            rintro rfl
            obtain rfl := Option.some.inj (hm.symm.trans hv)
            exact hne' (Option.some.inj (hu.symm.trans hstorage))
          fresh := by
            intro b' hb'
            by_cases hne' : b' = b
            · subst hne'
              exact Function.update_self _ _ _
            · exact (Function.update_of_ne hne' _ _).trans (h.fresh b' hb') }
    · have hb' : (s.grant c).blocks b = some v.cap := (Function.update_of_ne hne _ _).trans hb
      simp only [DynamicStorage.purge, hstorage, deallocate, hb', if_true]
      rw [State.grant, State.grant, Function.update_comm hne.symm]

/-- A container gets a new block. -/
theorem Owned.grant (h : Owned (s.set n none)) (c k : ℕ) :
    Owned ((s.grant c).set n (some ⟨some s.next, c, k⟩)) where
  pointers := by
    intro m u b hm hb
    rw [State.set_apply] at hm
    split_ifs at hm with hmn
    · cases hm
      cases hb
      exact Function.update_self _ _ _
    · have hb' : s.blocks b = some u.cap :=
        h.pointers m u b (by rwa [State.set_apply, if_neg hmn]) hb
      have hne : b ≠ s.next := by
        rintro rfl
        rw [show s.blocks s.next = none from h.fresh s.next (Nat.le_refl _)] at hb'
        cases hb'
      exact (Function.update_of_ne hne _ _).trans hb'
  unique := by
    have hold : ∀ {m u b}, m ≠ n → (s.grant c).containers m = some u → u.storage = some b →
        b ≠ s.next := by
      rintro m u b hmn hm hb rfl
      have hb' := h.pointers m u s.next (by rwa [State.set_apply, if_neg hmn]) hb
      rw [show (s.set n none).blocks s.next = none from h.fresh s.next (Nat.le_refl _)] at hb'
      cases hb'
    intro m m' u u' b hm hm' hb hb'
    rw [State.set_apply] at hm hm'
    split_ifs at hm hm' with hmn hmn' hmn'
    · exact hmn.trans hmn'.symm
    · cases hm
      cases hb
      exact absurd rfl (hold hmn' hm' hb')
    · cases hm'
      cases hb'
      exact absurd rfl (hold hmn hm hb)
    · exact h.unique m m' u u' b (by rwa [State.set_apply, if_neg hmn])
        (by rwa [State.set_apply, if_neg hmn']) hb hb'
  owned := by
    intro b c' hb
    by_cases hne : b = s.next
    · subst hne
      exact ⟨n, _, by rw [State.set_apply, if_pos rfl], rfl⟩
    · obtain ⟨m, u, hm, hu⟩ := h.owned b c' ((Function.update_of_ne hne _ _).symm.trans hb)
      rw [State.set_apply] at hm
      split_ifs at hm with hmn
      exact ⟨m, u, by rwa [State.set_apply, if_neg hmn], hu⟩
  fresh := by
    intro b hb
    have hb : s.next + 1 ≤ b := hb
    exact (Function.update_of_ne (by omega) _ _).trans (h.fresh b (by change s.next ≤ b; omega))

/-- A container without a block. -/
theorem Owned.null (h : Owned (s.set n none)) (c k : ℕ) :
    Owned (s.set n (some ⟨none, c, k⟩)) where
  pointers := by
    intro m u b hm hb
    rw [State.set_apply] at hm
    split_ifs at hm with hmn
    · cases hm
      cases hb
    · exact h.pointers m u b (by rwa [State.set_apply, if_neg hmn]) hb
  unique := by
    intro m m' u u' b hm hm' hb hb'
    rw [State.set_apply] at hm hm'
    split_ifs at hm hm' with hmn hmn' hmn'
    · exact hmn.trans hmn'.symm
    · cases hm
      cases hb
    · cases hm'
      cases hb'
    · exact h.unique m m' u u' b (by rwa [State.set_apply, if_neg hmn])
        (by rwa [State.set_apply, if_neg hmn']) hb hb'
  owned := by
    intro b c' hb
    obtain ⟨m, u, hm, hu⟩ := h.owned b c' hb
    rw [State.set_apply] at hm
    split_ifs at hm with hmn
    exact ⟨m, u, by rwa [State.set_apply, if_neg hmn], hu⟩
  fresh := h.fresh

/-- The sizes of containers do not matter. -/
theorem Owned.resized (h : Owned s) (hv : s.containers n = some v) (k : ℕ) :
    Owned (s.set n (some { v with size := k })) := by
  have hold : ∀ {m u}, (s.set n (some { v with size := k })).containers m = some u →
      ∃ u', s.containers m = some u' ∧ u'.storage = u.storage ∧ u'.cap = u.cap := by
    intro m u hm
    rw [State.set_apply] at hm
    split_ifs at hm with hmn
    · cases hm
      exact ⟨v, hmn ▸ hv, rfl, rfl⟩
    · exact ⟨u, hm, rfl, rfl⟩
  exact
    { pointers := by
        intro m u b hm hb
        obtain ⟨u', hm', hstorage, hcap⟩ := hold hm
        rw [← hcap]
        exact h.pointers m u' b hm' (hstorage.trans hb)
      unique := by
        intro m m' u u' b hm hm' hb hb'
        obtain ⟨w, hw, hstorage, -⟩ := hold hm
        obtain ⟨w', hw', hstorage', -⟩ := hold hm'
        exact h.unique m m' w w' b hw hw' (hstorage.trans hb) (hstorage'.trans hb')
      owned := by
        intro b c hb
        obtain ⟨m, u, hm, hu⟩ := h.owned b c hb
        by_cases hmn : m = n
        · subst hmn
          obtain rfl := Option.some.inj (hm.symm.trans hv)
          exact ⟨m, ⟨u.storage, u.cap, k⟩, by rw [State.set_apply, if_pos rfl], hu⟩
        · exact ⟨m, u, by rwa [State.set_apply, if_neg hmn], hu⟩
      fresh := h.fresh }

/-- A container without a block is destructed. -/
theorem Owned.remove (h : Owned s) (hv : s.containers n = some v) (hstorage : v.storage = none) :
    Owned (s.set n none) := by
  obtain ⟨s', hpurge, -, howned, -⟩ := h.purge hv
  rw [DynamicStorage.purge, hstorage] at hpurge
  cases hpurge
  exact howned

/-! ## Moves -/

theorem moveMembers_of_ne (s : State Name) (w : VectorData) (hne : n ≠ other) :
    moveMembers s n other w = (s.set n (some w)).set other (some ⟨none, 0, 0⟩) := by
  have hget : ((s.set other (some { w with storage := none })).set n (some w)).containers other =
      some { w with storage := none } := by
    rw [State.set_apply, if_neg hne.symm, State.set_apply, if_pos rfl]
  rw [moveMembers, release, hget]
  dsimp only
  rw [State.set_comm _ hne.symm, State.set_set]

/-- A container that is moved onto itself keeps its pointer. -/
theorem moveMembers_self (s : State Name) (n : Name) (w : VectorData) :
    moveMembers s n n w = s.set n (some { w with cap := 0, size := 0 }) := by
  have hget : ((s.set n (some { w with storage := none })).set n (some w)).containers n =
      some w := by
    rw [State.set_apply, if_pos rfl]
  rw [moveMembers, release, hget]
  dsimp only
  rw [State.set_set, State.set_set]

theorem Owned.moveMembers (h : Owned (s.set n none)) (hw : s.containers other = some w)
    (hne : n ≠ other) : Owned (moveMembers s n other w) := by
  rw [moveMembers_of_ne s w hne]
  have hget : ∀ m, ((s.set n (some w)).set other (some ⟨none, 0, 0⟩)).containers m =
      if m = other then some ⟨none, 0, 0⟩ else if m = n then some w else s.containers m := by
    intro m
    rw [State.set_apply, State.set_apply]
  have hother : (s.set n none).containers other = some w := by
    rw [State.set_apply, if_neg hne.symm, hw]
  -- The container that had the block of a container before.
  have hold : ∀ {m u b}, ((s.set n (some w)).set other (some ⟨none, 0, 0⟩)).containers m = some u →
      u.storage = some b → ∃ m', (s.set n none).containers m' = some u ∧
        (m = n ∧ m' = other ∨ m = m' ∧ m ≠ n ∧ m ≠ other) := by
    intro m u b hm hb
    rw [hget] at hm
    split_ifs at hm with hm' hmn
    · cases hm
      cases hb
    · cases hm
      exact ⟨other, hother, .inl ⟨hmn, rfl⟩⟩
    · exact ⟨m, by rwa [State.set_apply, if_neg hmn], .inr ⟨rfl, hmn, hm'⟩⟩
  exact
    { pointers := by
        intro m u b hm hb
        obtain ⟨m', hm', -⟩ := hold hm hb
        exact h.pointers m' u b hm' hb
      unique := by
        intro m₁ m₂ u₁ u₂ b hm₁ hm₂ hb₁ hb₂
        obtain ⟨m₁', hm₁', hor₁⟩ := hold hm₁ hb₁
        obtain ⟨m₂', hm₂', hor₂⟩ := hold hm₂ hb₂
        obtain rfl := h.unique m₁' m₂' u₁ u₂ b hm₁' hm₂' hb₁ hb₂
        rcases hor₁ with ⟨rfl, rfl⟩ | ⟨rfl, hn₁, ho₁⟩
        · rcases hor₂ with ⟨rfl, -⟩ | ⟨rfl, -, ho₂⟩
          · rfl
          · exact absurd rfl ho₂
        · rcases hor₂ with ⟨rfl, rfl⟩ | ⟨rfl, -, -⟩
          · exact absurd rfl ho₁
          · rfl
      owned := by
        intro b c hb
        obtain ⟨m, u, hm, hu⟩ := h.owned b c hb
        by_cases hmo : m = other
        · subst hmo
          obtain rfl := Option.some.inj (hm.symm.trans hother)
          exact ⟨n, u, by rw [hget, if_neg hne, if_pos rfl], hu⟩
        · rw [State.set_apply] at hm
          split_ifs at hm with hmn
          exact ⟨m, u, by rw [hget, if_neg hmo, if_neg hmn, hm], hu⟩
      fresh := h.fresh }

theorem State.set_none_of_none (hn : s.containers n = none) : s.set n none = s := by
  rw [State.set, ← hn, Function.update_eq_self]

theorem Owned.moveConstruct (h : Owned s) (n other : Name) : Owned (moveConstruct s n other) := by
  rw [DynamicStorage.moveConstruct]
  cases hn : s.containers n with
  | some v => exact h
  | none =>
    cases hw : s.containers other with
    | none => exact h
    | some w =>
      have hne : n ≠ other := by
        rintro rfl
        rw [hn] at hw
        cases hw
      exact Owned.moveMembers (by rwa [State.set_none_of_none hn]) hw hne

theorem Owned.moveAssign (h : Owned s) (n other : Name)
    (hself : n = other → ∀ v, s.containers n = some v → v.storage = none) :
    ∃ t, moveAssign s n other = .ok t ∧ Owned t := by
  rw [DynamicStorage.moveAssign]
  cases hv : s.containers n with
  | none => exact ⟨s, rfl, h⟩
  | some v =>
    cases hw : s.containers other with
    | none => exact ⟨s, rfl, h⟩
    | some w =>
      dsimp only
      by_cases hne : n = other
      · subst hne
        have hstorage := hself rfl v hv
        obtain rfl := Option.some.inj (hv.symm.trans hw)
        rw [DynamicStorage.purge, hstorage]
        refine ⟨_, rfl, ?_⟩
        rw [moveMembers_self]
        have hnull := (h.remove hv hstorage).null 0 0
        rwa [← hstorage] at hnull
      · obtain ⟨s', hpurge, hcontainers, howned, -⟩ := h.purge hv
        rw [hpurge]
        exact ⟨_, rfl, howned.moveMembers (by rw [hcontainers, hw]) hne⟩

/-- Moved onto itself, a container keeps the pointer to the block that it has returned. -/
theorem Owned.moveAssign_self (h : Owned s) (hv : s.containers n = some v) {b : ℕ}
    (hb : v.storage = some b) : ∃ t, DynamicStorage.moveAssign s n n = .ok t ∧
      t.containers n = some ⟨some b, 0, 0⟩ ∧ t.blocks b = none := by
  have hblock := h.pointers n v b hv hb
  refine ⟨({ s with blocks := Function.update s.blocks b none } : State Name).set n
    (some { v with cap := 0, size := 0 }), ?_, ?_, ?_⟩
  · simp only [DynamicStorage.moveAssign, hv, DynamicStorage.purge, hb, deallocate, hblock,
      if_true, moveMembers_self]
  · rw [State.set_apply, if_pos rfl, hb]
  · exact Function.update_self _ _ _

theorem Owned.destruct (h : Owned s) (n : Name) : ∃ t, destruct s n = .ok t ∧ Owned t := by
  rw [DynamicStorage.destruct]
  cases hv : s.containers n with
  | none => exact ⟨s, rfl, h⟩
  | some v =>
    obtain ⟨s', hpurge, -, howned, -⟩ := h.purge hv
    dsimp only
    rw [hpurge]
    exact ⟨_, rfl, howned⟩

variable (reservation : ℕ → ℕ)

theorem Owned.reallocate (h : Owned s) (hv : s.containers n = some v) (minCapacity : ℕ)
    (granted : Bool) : ∃ t data ok,
      reallocate reservation s n v minCapacity granted = .ok (t, data, ok) ∧ Owned t ∧
      t.containers n = some data := by
  rw [DynamicStorage.reallocate]
  split_ifs with hsmall
  · exact ⟨s, v, false, rfl, h, hv⟩
  · cases granted with
    | false => exact ⟨s, v, false, rfl, h, hv⟩
    | true =>
      obtain ⟨s', hpurge, -, howned, hgrant⟩ := h.purge hv
      simp only [allocate, if_true, hgrant]
      refine ⟨_, _, true, rfl, ?_, by rw [State.set_apply, if_pos rfl]⟩
      have hnext : s'.next = s.next := by
        rw [DynamicStorage.purge] at hpurge
        cases hstorage : v.storage with
        | none =>
          rw [hstorage] at hpurge
          cases hpurge
          rfl
        | some b =>
          simp only [hstorage, deallocate, h.pointers n v b hv hstorage, if_true] at hpurge
          cases hpurge
          rfl
      rw [← hnext]
      exact howned.grant (reservation minCapacity) v.size

/-! ## Steps -/

/-- The size of a container changes after its storage has been made large enough. -/
theorem Owned.reallocate_size (h : Owned s) (hv : s.containers n = some v) (minCapacity : ℕ)
    (granted : Bool) (size : VectorData → ℕ) : ∃ t,
      (match DynamicStorage.reallocate reservation s n v minCapacity granted with
        | .error e => .error e
        | .ok (s, _, false) => .ok s
        | .ok (s, v, true) => .ok (s.set n (some { v with size := size v }))) =
        (.ok t : Except Misuse (State Name)) ∧ Owned t := by
  obtain ⟨t, data, ok, hreallocate, ht, hdata⟩ :=
    h.reallocate reservation hv minCapacity granted
  rw [hreallocate]
  cases ok with
  | false => exact ⟨t, rfl, ht⟩
  | true => exact ⟨_, rfl, ht.resized hdata _⟩

theorem Owned.copyAssign (h : Owned s) (n other : Name) (granted : Bool) :
    ∃ t, step reservation s (.copyAssign n other granted) = .ok t ∧ Owned t := by
  rw [step]
  cases hv : s.containers n with
  | none => exact ⟨s, rfl, h⟩
  | some v =>
    cases hw : s.containers other with
    | none => exact ⟨s, rfl, h⟩
    | some w =>
      dsimp only
      split_ifs with hfits
      · exact ⟨_, rfl, h.resized hv w.size⟩
      · obtain ⟨s', hpurge, -, howned, -⟩ := h.purge hv
        rw [hpurge]
        cases granted with
        | true => exact ⟨_, rfl, howned.grant (reservation w.size) w.size⟩
        | false => exact ⟨_, rfl, howned.null 0 0⟩

theorem Owned.swap (h : Owned s) (n other temporary : Name) :
    ∃ t, step reservation s (.swap n other temporary) = .ok t ∧ Owned t := by
  rw [step]
  cases hv : s.containers n with
  | none => exact ⟨s, rfl, h⟩
  | some v =>
    cases hw : s.containers other with
    | none => exact ⟨s, rfl, h⟩
    | some w =>
      cases htemporary : s.containers temporary with
      | some u => exact ⟨s, rfl, h⟩
      | none =>
        have hne : temporary ≠ n := by
          rintro rfl
          rw [hv] at htemporary
          cases htemporary
        have hne' : other ≠ temporary := by
          rintro rfl
          rw [hw] at htemporary
          cases htemporary
        dsimp only
        -- Nothing is moved onto itself but a container without a block.
        have hmoved : (DynamicStorage.moveConstruct s temporary n).containers n =
            some ⟨none, 0, 0⟩ := by
          rw [DynamicStorage.moveConstruct, htemporary, hv]
          dsimp only
          rw [moveMembers_of_ne s v hne, State.set_apply, if_pos rfl]
        obtain ⟨s₁, hassign₁, h₁⟩ := (h.moveConstruct temporary n).moveAssign n other
          (fun _ u hu => by
            rw [hmoved] at hu
            cases hu
            rfl)
        rw [hassign₁]
        obtain ⟨s₂, hassign₂, h₂⟩ := h₁.moveAssign other temporary
          (fun heq => absurd heq hne')
        dsimp only
        rw [hassign₂]
        exact h₂.destruct temporary

/-- A step that moves no container with a block onto itself loses no block and returns none
twice. -/
theorem Owned.step (h : Owned s) (action : Action Name) (hself : NoSelfMove s action) :
    ∃ t, step reservation s action = .ok t ∧ Owned t := by
  cases action with
  | construct n minCapacity granted =>
    rw [DynamicStorage.step]
    cases hn : s.containers n with
    | some v => exact ⟨s, rfl, h⟩
    | none =>
      have h' : Owned (s.set n none) := by rwa [State.set_none_of_none hn]
      cases granted with
      | true => exact ⟨_, rfl, h'.grant (reservation minCapacity) 0⟩
      | false => exact ⟨_, rfl, h'.null 0 0⟩
  | copyConstruct n other granted =>
    rw [DynamicStorage.step]
    cases hn : s.containers n with
    | some v => exact ⟨s, rfl, h⟩
    | none =>
      cases hw : s.containers other with
      | none => exact ⟨s, rfl, h⟩
      | some w =>
        have h' : Owned (s.set n none) := by rwa [State.set_none_of_none hn]
        cases granted with
        | true => exact ⟨_, rfl, h'.grant (reservation w.size) w.size⟩
        | false => exact ⟨_, rfl, h'.null 0 0⟩
  | moveConstruct n other => exact ⟨_, rfl, h.moveConstruct n other⟩
  | copyAssign n other granted => exact h.copyAssign reservation n other granted
  | moveAssign n other => exact h.moveAssign n other hself
  | swap n other temporary => exact h.swap reservation n other temporary
  | reserve n minCapacity granted =>
    rw [DynamicStorage.step]
    cases hv : s.containers n with
    | none => exact ⟨s, rfl, h⟩
    | some v =>
      dsimp only
      split_ifs with hfits
      · exact ⟨s, rfl, h⟩
      · obtain ⟨t, data, ok, hreallocate, ht, -⟩ :=
          h.reallocate reservation hv minCapacity granted
        rw [hreallocate]
        exact ⟨t, rfl, ht⟩
  | resize n size granted =>
    rw [DynamicStorage.step]
    cases hv : s.containers n with
    | none => exact ⟨s, rfl, h⟩
    | some v =>
      dsimp only
      split_ifs with hfits
      · exact ⟨_, rfl, h.resized hv size⟩
      · exact h.reallocate_size reservation hv size granted fun _ => size
  | emplaceBack n granted =>
    rw [DynamicStorage.step]
    cases hv : s.containers n with
    | none => exact ⟨s, rfl, h⟩
    | some v =>
      dsimp only
      split_ifs with hfits
      · exact ⟨_, rfl, h.resized hv (v.size + 1)⟩
      · exact h.reallocate_size reservation hv (v.size + 1) granted fun v => v.size + 1
  | erase n elements =>
    rw [DynamicStorage.step]
    cases hv : s.containers n with
    | none => exact ⟨s, rfl, h⟩
    | some v =>
      cases elements with
      | none => exact ⟨_, rfl, h.resized hv (v.size - 1)⟩
      | some pair =>
        obtain ⟨it, last⟩ := pair
        obtain ⟨s₁, hassign, h₁⟩ := h.moveAssign _ _ (hself (by rw [hv]; exact Option.some_ne_none v))
        obtain ⟨s₂, hdestruct, h₂⟩ := h₁.destruct last
        dsimp only
        rw [hassign]
        dsimp only
        rw [hdestruct]
        dsimp only
        cases hv₂ : s₂.containers n with
        | none => exact ⟨s₂, rfl, h₂⟩
        | some v₂ => exact ⟨_, rfl, h₂.resized hv₂ (v₂.size - 1)⟩
  | clear n =>
    rw [DynamicStorage.step]
    cases hv : s.containers n with
    | none => exact ⟨s, rfl, h⟩
    | some v => exact ⟨_, rfl, h.resized hv 0⟩
  | destruct n => exact h.destruct n

/-- A step that moves a container with a block onto itself goes wrong. -/
theorem Owned.noSelfMove (h : Owned s) {t : State Name} {action : Action Name}
    (hstep : DynamicStorage.step reservation s action = .ok t) (ht : Owned t) :
    NoSelfMove s action := by
  cases action with
  | moveAssign n other =>
    rintro rfl v hv
    by_contra hstorage
    obtain ⟨b, hb⟩ := Option.ne_none_iff_exists'.mp hstorage
    obtain ⟨t', hassign, hcontainer, hblock⟩ := h.moveAssign_self hv hb
    obtain rfl := Except.ok.inj (hassign.symm.trans hstep)
    rw [ht.pointers n _ b hcontainer rfl] at hblock
    cases hblock
  | erase n elements =>
    cases elements with
    | none => exact trivial
    | some pair =>
      obtain ⟨it, last⟩ := pair
      rintro hn rfl v hv
      by_contra hstorage
      obtain ⟨b, hb⟩ := Option.ne_none_iff_exists'.mp hstorage
      obtain ⟨u, hu⟩ := Option.ne_none_iff_exists'.mp hn
      obtain ⟨t', hassign, hcontainer, hblock⟩ := h.moveAssign_self hv hb
      -- The element is destructed with the pointer that it has kept.
      have hdestruct : DynamicStorage.destruct t' it = .error .returnedTwice := by
        simp only [DynamicStorage.destruct, hcontainer, DynamicStorage.purge, deallocate, hblock]
      simp only [DynamicStorage.step, hu, hassign, hdestruct] at hstep
      cases hstep
  | _ => exact trivial

end Owned

end Fimbulwinter.DynamicStorage
