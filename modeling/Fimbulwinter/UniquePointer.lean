import Fimbulwinter.OptionalLifetimes

/-! # `ext::unique_ptr`

Objects are numbered in the order of their construction, and an address is the number of the object
in its memory. Whether memory is allocated for an object is an input of its construction. -/
namespace Fimbulwinter.UniquePointer
open OptionalLifetimes (Accounted)

variable {Name : Type*} [DecidableEq Name]

inductive Misuse
  /-- Memory is deallocated, and the object in it destroyed, for the second time. -/
  | deallocated
  deriving DecidableEq, Repr

/-- The pointers of a program, and what has become of the objects that they have constructed. -/
structure State (Name : Type*) where
  /-- `data_` of every pointer that exists -/
  pointers : Name → Option (Option ℕ)
  /-- the number of objects that have been constructed -/
  constructed : ℕ
  destroyed : List ℕ
  deallocated : List ℕ
  detached : List ℕ

def State.initial : State Name := ⟨fun _ => none, 0, [], [], []⟩

inductive Action (Name : Type*)
  | create (x : Name)
  /-- the constructor with `in_place`, and whether there is memory -/
  | createWith (x : Name) (allocated : Bool)
  /-- the move constructor -/
  | createFrom (x y : Name)
  /-- the move assignment -/
  | assign (x y : Name)
  | detach (x : Name)
  | reset (x : Name)
  | destroy (x : Name)
  deriving DecidableEq, Repr

/-! ## Pointers -/

/-- `get` -/
def State.get (s : State Name) (x : Name) : Option ℕ := (s.pointers x).join

def setData (x : Name) (data : Option ℕ) (s : State Name) : State Name :=
  { s with pointers := Function.update s.pointers x (some data) }

/-- `reset`: `data_` stays as it is. -/
def reset (x : Name) (s : State Name) : Except Misuse (State Name) :=
  match s.get x with
  | none => .ok s
  | some a =>
    if a ∈ s.deallocated then .error .deallocated
    else .ok { s with destroyed := s.destroyed ++ [a], deallocated := s.deallocated ++ [a] }

/-- The constructor with `in_place`. -/
def createWith (x : Name) (allocated : Bool) (s : State Name) : State Name :=
  if allocated then
    { setData x (some s.constructed) s with constructed := s.constructed + 1 }
  else setData x none s

/-- The second pointer gives its object to the first one. -/
def take (x y : Name) (s : State Name) : State Name := setData y none (setData x (s.get y) s)

/-- `detach` -/
def detach (x : Name) (s : State Name) : State Name :=
  setData x none { s with detached := s.detached ++ (s.get x).toList }

/-- The pointer is gone. -/
def remove (x : Name) (s : State Name) : State Name :=
  { s with pointers := Function.update s.pointers x none }

/-- A call for pointers that exist, or for a name that is not in use yet; other calls are none. -/
def step (s : State Name) : Action Name → Except Misuse (State Name)
  | .create x => if s.pointers x = none then .ok (setData x none s) else .ok s
  | .createWith x allocated =>
    if s.pointers x = none then .ok (createWith x allocated s) else .ok s
  | .createFrom x y =>
    if s.pointers x = none ∧ s.pointers y ≠ none then .ok (take x y s) else .ok s
  | .assign x y =>
    if s.pointers x ≠ none ∧ s.pointers y ≠ none then (reset x s).map (take x y) else .ok s
  | .detach x => if s.pointers x ≠ none then .ok (detach x s) else .ok s
  | .reset x => if s.pointers x ≠ none then reset x s else .ok s
  | .destroy x =>
    if s.pointers x ≠ none then (reset x s).map (remove x) else .ok s

/-! ## Ownership -/

/-- Every pointer is null, or the address of an object that is alive and its alone; every object is
owned by a pointer, detached, or destroyed and its memory deallocated, once. -/
structure Owned (s : State Name) : Prop where
  accounted : Accounted s.get s.constructed (s.destroyed ++ s.detached)
  deallocated : s.deallocated = s.destroyed
  /-- When there is no pointer any more, every object that is not detached has been destroyed. -/
  atEnd : (∀ x, s.pointers x = none) →
    (s.destroyed ++ s.detached).Perm (List.range s.constructed)

/-- Pointers are reset when they are null only. -/
def Guarded (s : State Name) : Action Name → Prop
  | .reset x => s.get x = none
  | _ => True

variable {s t : State Name} {x y : Name} {a : ℕ}

omit [DecidableEq Name] in
theorem Owned.of_accounted (h : Accounted s.get s.constructed (s.destroyed ++ s.detached))
    (hdeallocated : s.deallocated = s.destroyed) : Owned s :=
  ⟨h, hdeallocated, fun hnone => h.atEnd fun x => by rw [State.get, hnone x]; rfl⟩

omit [DecidableEq Name] in
theorem owned_initial : Owned (State.initial : State Name) := by
  refine .of_accounted ⟨List.nodup_nil, fun x v hv => ?_, fun x y v hv => ?_, fun v hv => ?_,
    fun v hv => ?_⟩ rfl
  · cases hv
  · cases hv
  · cases hv
  · exact absurd hv (Nat.not_lt_zero v)

/-- What a pointer refers to, when one pointer changes. -/
theorem get_of_pointers {o : Option (Option ℕ)}
    (h : t.pointers = Function.update s.pointers x o) :
    t.get = Function.update s.get x o.join := by
  funext y
  by_cases hy : y = x
  · subst hy
    simp only [State.get, h, Function.update_self]
  · simp only [State.get, h, Function.update_of_ne hy]

theorem get_setData (x : Name) (data : Option ℕ) (s : State Name) :
    (setData x data s).get = Function.update s.get x data := get_of_pointers (o := some data) rfl

theorem get_remove (x : Name) (s : State Name) : (remove x s).get = Function.update s.get x none :=
  get_of_pointers (o := none) rfl

theorem get_take (x y : Name) (s : State Name) :
    (take x y s).get = Function.update (Function.update s.get x (s.get y)) y none := by
  rw [take, get_setData, get_setData]

omit [DecidableEq Name] in
theorem get_eq_none (hx : s.pointers x = none) : s.get x = none := by
  rw [State.get, hx]
  rfl

omit [DecidableEq Name] in
/-- What a pointer refers to is alive, and becomes disposed of. -/
theorem Owned.reset_eq (h : Owned s) (hx : s.get x = some a) :
    reset x s = .ok { s with
      destroyed := s.destroyed ++ [a], deallocated := s.deallocated ++ [a] } := by
  have halive := (h.accounted.alive x a hx).2
  rw [List.mem_append, not_or] at halive
  rw [reset, hx]
  exact if_neg (by rw [h.deallocated]; exact halive.1)

/-- A pointer that does not refer to what it owned any more. -/
theorem Owned.dispose (h : Owned s) (hx : s.get x = some a) :
    Accounted (Function.update s.get x none) s.constructed (s.destroyed ++ [a] ++ s.detached) :=
  (h.accounted.destruct hx).perm (by
    rw [List.append_assoc, List.append_assoc]
    exact List.perm_append_comm.append_left s.destroyed)

theorem Owned.setNull (h : Owned s) (hx : s.get x = none) : Owned (setData x none s) := by
  refine .of_accounted ?_ h.deallocated
  rw [get_setData, ← hx, Function.update_eq_self]
  exact h.accounted

theorem Owned.createWith (h : Owned s) (hx : s.get x = none) (allocated : Bool) :
    Owned (createWith x allocated s) := by
  rw [UniquePointer.createWith]
  split_ifs
  · refine .of_accounted ?_ h.deallocated
    change Accounted (setData x (some s.constructed) s).get _ _
    rw [get_setData]
    exact h.accounted.construct hx
  · exact h.setNull hx

theorem Owned.take (h : Owned s) (hx : s.get x = none) (y : Name) : Owned (take x y s) := by
  refine .of_accounted ?_ h.deallocated
  rw [get_take]
  exact h.accounted.move hx y

/-- The assignment: what the pointer owned before is disposed of, also where it is assigned to
itself. -/
theorem Owned.assign (h : Owned s) (x y : Name) :
    ∃ t, (reset x s).map (UniquePointer.take x y) = .ok t ∧ Owned t := by
  cases hx : s.get x with
  | none => exact ⟨_, by rw [reset, hx]; rfl, h.take hx y⟩
  | some a =>
    refine ⟨_, by rw [h.reset_eq hx]; rfl, .of_accounted ?_ ?_⟩
    · have hmove := (h.dispose hx).move (Function.update_self x none s.get) y
      have hget : Function.update (Function.update (Function.update s.get x none) x
          (Function.update s.get x none y)) y none =
          Function.update (Function.update s.get x (s.get y)) y none := by
        by_cases hyx : y = x
        · subst hyx
          simp only [Function.update_idem]
        · rw [Function.update_idem, Function.update_of_ne hyx]
      rw [hget] at hmove
      rw [get_take]
      exact hmove
    · exact congrArg (· ++ [a]) h.deallocated

theorem Owned.detach (h : Owned s) (x : Name) : Owned (detach x s) := by
  refine .of_accounted ?_ h.deallocated
  rw [UniquePointer.detach, get_setData]
  change Accounted (Function.update s.get x none) s.constructed
    (s.destroyed ++ (s.detached ++ (s.get x).toList))
  cases hx : s.get x with
  | none =>
    rw [← hx, Function.update_eq_self, hx, Option.toList_none, List.append_nil]
    exact h.accounted
  | some a =>
    rw [← List.append_assoc]
    exact h.accounted.destruct hx

theorem Owned.destroy (h : Owned s) (x : Name) :
    ∃ t, (reset x s).map (remove x) = .ok t ∧ Owned t := by
  cases hx : s.get x with
  | none =>
    refine ⟨remove x s, by rw [reset, hx]; rfl, .of_accounted ?_ h.deallocated⟩
    rw [get_remove, ← hx, Function.update_eq_self]
    exact h.accounted
  | some a =>
    refine ⟨_, by rw [h.reset_eq hx]; rfl, .of_accounted ?_ (congrArg (· ++ [a]) h.deallocated)⟩
    rw [get_remove]
    exact h.dispose hx

/-! ## Runs -/

/-- What a guarded action makes of pointers that own their objects. -/
theorem Owned.step (h : Owned s) {action : Action Name} (hguarded : Guarded s action) :
    ∃ t, step s action = .ok t ∧ Owned t := by
  cases action with
  | create x =>
    rw [UniquePointer.step]
    split_ifs with hx
    · exact ⟨_, rfl, h.setNull (get_eq_none hx)⟩
    · exact ⟨s, rfl, h⟩
  | createWith x allocated =>
    rw [UniquePointer.step]
    split_ifs with hx
    · exact ⟨_, rfl, h.createWith (get_eq_none hx) allocated⟩
    · exact ⟨s, rfl, h⟩
  | createFrom x y =>
    rw [UniquePointer.step]
    split_ifs with hx
    · exact ⟨_, rfl, h.take (get_eq_none hx.1) y⟩
    · exact ⟨s, rfl, h⟩
  | assign x y =>
    rw [UniquePointer.step]
    split_ifs
    · exact h.assign x y
    · exact ⟨s, rfl, h⟩
  | detach x =>
    rw [UniquePointer.step]
    split_ifs
    · exact ⟨_, rfl, h.detach x⟩
    · exact ⟨s, rfl, h⟩
  | reset x =>
    rw [UniquePointer.step]
    split_ifs
    · have hnull : s.get x = none := hguarded
      exact ⟨s, by rw [reset, hnull], h⟩
    · exact ⟨s, rfl, h⟩
  | destroy x =>
    rw [UniquePointer.step]
    split_ifs
    · exact h.destroy x
    · exact ⟨s, rfl, h⟩

/-- A pointer that is reset still refers to what it owned. -/
theorem Owned.guarded (h : Owned s) {action : Action Name}
    (hstep : UniquePointer.step s action = .ok t) (ht : Owned t) : Guarded s action := by
  cases action with
  | reset x =>
    by_contra hx
    obtain ⟨a, ha⟩ := Option.ne_none_iff_exists'.mp hx
    have hexists : s.pointers x ≠ none := fun hnone => hx (get_eq_none hnone)
    rw [UniquePointer.step, if_pos hexists, h.reset_eq ha] at hstep
    obtain rfl := Except.ok.inj hstep
    exact (ht.accounted.alive x a ha).2
      (List.mem_append_left _ (List.mem_append_right _ (List.mem_singleton_self a)))
  | _ => exact trivial

/-- In a run every call goes through and leaves every object owned exactly if pointers are reset when
they are null only. -/
theorem ownership_iff (actions : List (Action Name)) :
    RelatesAll step (fun _ _ t => Owned t) State.initial actions ↔
      MeetsAll step Guarded State.initial actions :=
  relatesAll_iff_meetsAll Owned owned_initial
    (fun h hguarded => by
      obtain ⟨t, ht, howned⟩ := h.step hguarded
      exact ⟨t, ht, howned, howned⟩)
    (fun h hstep ht => h.guarded hstep ht) actions

/-- A pointer that is reset, and destroyed, frees its memory twice. -/
theorem reset_dangles :
    (∃ s : State ℕ, runAll step State.initial [.createWith 0 true, .reset 0] = .ok s ∧
      s.get 0 = some 0 ∧ s.destroyed = [0] ∧ s.deallocated = [0]) ∧
    runAll step (State.initial : State ℕ) [.createWith 0 true, .reset 0, .destroy 0] =
      .error .deallocated ∧
    ¬ RelatesAll step (fun _ _ t => Owned t) (State.initial : State ℕ)
      [.createWith 0 true, .reset 0, .destroy 0] := by
  refine ⟨⟨_, rfl, rfl, rfl, rfl⟩, rfl, ?_⟩
  rintro ⟨s, hs, -, t, ht, -, u, hu, -⟩
  cases hs
  cases ht
  cases hu

end Fimbulwinter.UniquePointer
