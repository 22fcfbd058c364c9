import Fimbulwinter.VectorRuns

/-! # Lifetimes of elements

Vectors of elements that have to be destructed are constructed, copied, moved and destructed as
`basic_container` does it. -/
namespace Fimbulwinter.Vector

variable {Name α : Type*}

/-- The vectors of a program. -/
abbrev Vectors (Name α : Type*) := Name → Option (VectorData α)

/-- What a program does with vectors. -/
inductive Action (Name α : Type*)
  | construct (n : Name) (granted : Bool)
  | copyConstruct (n other : Name) (granted : Bool)
  | moveConstruct (n other : Name)
  | copyAssign (n other : Name) (granted : Bool)
  | moveAssign (n other : Name)
  | call (n : Name) (op : Operation α)
  | destruct (n : Name)

section Step

variable [DecidableEq Name]

/-- A new vector gets copies of the elements of another one, or nothing. -/
def copyConstruct (storage : Storage) (s : Vectors Name α) (n : Name) (w : VectorData α)
    (granted : Bool) : Except Misuse (Vectors Name α) :=
  match storage.allocate (storage.reservation w.size) granted with
  | none => .ok (Function.update s n (some .released))
  | some data =>
    match data.copy false w with
    | .error e => .error e
    | .ok u => .ok (Function.update s n (some u))

/-- The assignment of elements from `other`, which is `w`. When it is the vector itself, its
elements are already destructed. -/
def assignElements (storage : Storage) (s : Vectors Name α) (n other : Name) (v w : VectorData α)
    (granted : Bool) : Except Misuse (Vectors Name α) :=
  if w.size ≤ v.capacity then
    match v.destructRange false 0 v.size with
    | .error e => .error e
    | .ok v =>
      match v.copy false (if n = other then v else w) with
      | .error e => .error e
      | .ok u => .ok (Function.update s n (some u))
  else
    match v.purge false with
    | .error e => .error e
    | .ok _ => copyConstruct storage s n w granted

/-- The storage of `other`, which is `w`, is taken. -/
def takeStorage (s : Vectors Name α) (n other : Name) (w : VectorData α) : Vectors Name α :=
  Function.update (Function.update s n (some w)) other (some .released)

/-- A step of a program; one that uses names wrongly is none of a program and does nothing. -/
def stepAll (storage : Storage) (s : Vectors Name α) :
    Action Name α → Except Misuse (Vectors Name α)
  | .construct n granted =>
    match s n with
    | some _ => .ok s
    | none => .ok (Function.update s n (some (initial storage granted)))
  | .copyConstruct n other granted =>
    match s n, s other with
    | none, some w => copyConstruct storage s n w granted
    | _, _ => .ok s
  | .moveConstruct n other =>
    match s n, s other with
    | none, some w =>
      match storage with
      | .static _ => copyConstruct storage s n w true
      | .dynamic _ _ _ => .ok (takeStorage s n other w)
    | _, _ => .ok s
  | .copyAssign n other granted =>
    match s n, s other with
    | some v, some w => assignElements storage s n other v w granted
    | _, _ => .ok s
  | .moveAssign n other =>
    match s n, s other with
    | some v, some w =>
      match storage with
      | .static _ => assignElements storage s n other v w true
      | .dynamic _ _ _ =>
        match v.purge false with
        | .error e => .error e
        | .ok _ => .ok (takeStorage s n other w)
    | _, _ => .ok s
  | .call n op =>
    match s n with
    | none => .ok s
    | some v =>
      match op.run storage false v with
      | .error e => .error e
      | .ok (w, _) => .ok (Function.update s n (some w))
  | .destruct n =>
    match s n with
    | none => .ok s
    | some v =>
      match v.purge false with
      | .error e => .error e
      | .ok _ => .ok (Function.update s n none)

end Step

/-- A slot holds an element exactly if its index is below the size. -/
def Alive (s : Vectors Name α) : Prop :=
  ∀ n v, s n = some v → ∀ i, v.slots i ≠ none ↔ i < v.size

/-- Copies fit the storage that they get. -/
def Storage.Fits (storage : Storage) (size : ℕ) : Prop :=
  match storage with
  | .static _ => True
  | .dynamic _ _ reservation => size ≤ reservation size ∧ storage.Sized size

/-- Elements are assigned from another vector, or there are none. -/
def AssignSound [DecidableEq Name] (storage : Storage) (n other : Name) (v w : VectorData α)
    (granted : Bool) : Prop :=
  (n = other → v.size = 0) ∧ (v.capacity < w.size → granted = true → storage.Fits w.size)

/-- Operations are sound, copies fit their storage, and no vector with elements is assigned to
itself element by element. -/
def StepSound [DecidableEq Name] (storage : Storage) (s : Vectors Name α) :
    Action Name α → Prop
  | .construct _ granted => granted = true → storage.Sized 0
  | .copyConstruct _ other granted => ∀ w ∈ s other, granted = true → storage.Fits w.size
  | .copyAssign n other granted =>
    ∀ v ∈ s n, ∀ w ∈ s other, AssignSound storage n other v w granted
  | .moveAssign n other =>
    match storage with
    | .static _ => ∀ v ∈ s n, n = other → v.size = 0
    | .dynamic _ _ _ => True
  | .call n op => ∀ v ∈ s n, op.Sound storage false v
  | _ => True

instance (storage : Storage) (size : ℕ) : Decidable (storage.Fits size) :=
  match storage with
  | .static _ => .isTrue True.intro
  | .dynamic elementSize pos reservation => inferInstanceAs (Decidable
    (size ≤ reservation size ∧ Storage.Sized (.dynamic elementSize pos reservation) size))

instance [DecidableEq Name] (storage : Storage) (n other : Name) (v w : VectorData α)
    (granted : Bool) : Decidable (AssignSound storage n other v w granted) :=
  inferInstanceAs (Decidable ((_ → _) ∧ (_ → _ → _)))

instance [DecidableEq Name] (storage : Storage) (s : Vectors Name α) :
    ∀ action : Action Name α, Decidable (StepSound storage s action)
  | .construct _ granted => inferInstanceAs (Decidable (granted = true → storage.Sized 0))
  | .copyConstruct _ other granted =>
    inferInstanceAs (Decidable (∀ w ∈ s other, granted = true → storage.Fits w.size))
  | .copyAssign n other granted => inferInstanceAs (Decidable
    (∀ v ∈ s n, ∀ w ∈ s other, AssignSound storage n other v w granted))
  | .moveAssign n other =>
    match storage with
    | .static _ => inferInstanceAs (Decidable (∀ v ∈ s n, n = other → v.size = 0))
    | .dynamic _ _ _ => .isTrue True.intro
  | .call n op => inferInstanceAs (Decidable (∀ v ∈ s n, op.Sound storage false v))
  | .moveConstruct _ _ => .isTrue True.intro
  | .destruct _ => .isTrue True.intro

/-- Every vector holds the elements of a list. -/
def HoldAll (storage : Storage) (s : Vectors Name α) : Prop :=
  ∀ n v, s n = some v → ∃ xs, VectorData.Holds storage false v xs

section Run

variable {storage : Storage} {s : Vectors Name α} {v w : VectorData α} {xs : List α}
  {n other : Name} {granted : Bool}

theorem VectorData.Holds.alive (h : VectorData.Holds storage false v xs) (i : ℕ) :
    v.slots i ≠ none ↔ i < v.size := by
  rw [h.slots i (.inr rfl), h.size, Ne, List.getElem?_eq_none_iff, Nat.not_le]

theorem HoldAll.alive (h : HoldAll storage s) : Alive s := by
  intro n v hv
  obtain ⟨xs, hxs⟩ := h n v hv
  exact hxs.alive

theorem holds_released (hdynamic : ∀ capacity, storage ≠ .static capacity) :
    VectorData.Holds storage false (.released : VectorData α) [] :=
  ⟨rfl, le_rfl, fun capacity hc => absurd hc (hdynamic capacity), le_rfl, fun _ _ => rfl⟩

variable [DecidableEq Name]

theorem HoldAll.update (h : HoldAll storage s) (n : Name)
    (hw : VectorData.Holds storage false w xs) :
    HoldAll storage (Function.update s n (some w)) := by
  intro m v hv
  rw [Function.update_apply] at hv
  split_ifs at hv with hm
  · cases hv
    exact ⟨xs, hw⟩
  · exact h m v hv

theorem HoldAll.copyConstruct (h : HoldAll storage s) (n : Name)
    (hw : VectorData.Holds storage false w xs) (hfits : granted = true → storage.Fits w.size) :
    ∃ t, copyConstruct storage s n w granted = .ok t ∧ HoldAll storage t := by
  have hsize := hw.size
  have hle := hw.fits
  cases storage with
  | static capacity =>
    have hcapacity := hw.static capacity rfl
    obtain ⟨u, hcopy, hu, -⟩ := hw.copy (v := ⟨fun _ => none, capacity, capacity, 0⟩)
      (fun _ _ => rfl) (by dsimp only; omega) le_rfl (fun c hc => Storage.static.inj hc)
    refine ⟨_, ?_, h.update n hu⟩
    simp only [Vector.copyConstruct, Storage.allocate, Storage.reservation, if_true, hcopy]
  | dynamic elementSize pos reservation =>
    cases granted with
    | false => exact ⟨_, rfl, h.update n (holds_released fun c hc => by cases hc)⟩
    | true =>
      obtain ⟨hreserved, hbytes⟩ := hfits rfl
      have hbytes : elementSize * reservation w.size < 2 ^ 64 := hbytes
      have hextent : elementSize * reservation w.size % 2 ^ 64 / elementSize =
          reservation w.size := by
        rw [Nat.mod_eq_of_lt hbytes, Nat.mul_div_cancel_left _ pos]
      obtain ⟨u, hcopy, hu, -⟩ := hw.copy
        (v := ⟨fun _ => none, elementSize * reservation w.size % 2 ^ 64 / elementSize,
          reservation w.size, 0⟩) (fun _ _ => rfl) (by dsimp only; omega) (by dsimp only; omega)
        (fun c hc => by cases hc)
      refine ⟨_, ?_, h.update n hu⟩
      simp only [Vector.copyConstruct, Storage.allocate, Storage.reservation, if_true, hcopy]

theorem HoldAll.assignElements (h : HoldAll storage s) (hv : s n = some v) (hw : s other = some w)
    (hsound : AssignSound storage n other v w granted) :
    ∃ t, assignElements storage s n other v w granted = .ok t ∧ HoldAll storage t := by
  obtain ⟨xs, hxs⟩ := h n v hv
  obtain ⟨ys, hys⟩ := h other w hw
  obtain ⟨hself, hfits⟩ := hsound
  rw [Vector.assignElements]
  by_cases hcapacity : w.size ≤ v.capacity
  · obtain ⟨u, hu, hholds⟩ := hxs.destructRange (n := 0) (Nat.zero_le _)
    rw [Nat.sub_zero, ← hxs.size] at hu
    have hraw : ∀ j, u.slots j = none := fun j => hholds.raw rfl (Nat.zero_le j)
    rw [if_pos hcapacity, hu]
    dsimp only
    by_cases hne : n = other
    · -- There is nothing to copy.
      have hempty := hself hne
      have hsize : u.size = v.size := by
        rw [VectorData.destructRange_ok fun j _ hj => by omega] at hu
        cases hu
        rfl
      have hu' : VectorData.Holds storage false u ([] : List α) :=
        ⟨by rw [hsize, hempty]; rfl, Nat.zero_le _, hholds.static, hholds.room, hholds.slots⟩
      obtain ⟨r, hcopy, hr, -⟩ := hu'.copy (fun _ j => hraw j) (Nat.zero_le _) hholds.room
        hholds.static
      rw [if_pos hne, hcopy]
      exact ⟨_, rfl, h.update n hr⟩
    · have hucapacity : u.capacity = v.capacity := by
        have hlength := hxs.size
        rw [VectorData.destructRange_ok fun j _ hj => hxs.ne_none (by omega)] at hu
        cases hu
        rfl
      obtain ⟨r, hcopy, hr, -⟩ := hys.copy (fun _ j => hraw j)
        (by rw [hucapacity, ← hys.size]; exact hcapacity) hholds.room hholds.static
      rw [if_neg hne, hcopy]
      exact ⟨_, rfl, h.update n hr⟩
  · rw [if_neg hcapacity, hxs.purge]
    exact h.copyConstruct n hys (hfits (Nat.not_le.mp hcapacity))

theorem HoldAll.takeStorage (h : HoldAll storage s) (hw : s other = some w)
    (hdynamic : ∀ capacity, storage ≠ .static capacity) :
    HoldAll storage (takeStorage s n other w) := by
  obtain ⟨xs, hxs⟩ := h other w hw
  exact (h.update n hxs).update other (holds_released hdynamic)

/-- A sound step uses only slots that it may use, and leaves elements in the right ones. -/
theorem HoldAll.step (h : HoldAll storage s) {action : Action Name α}
    (hsound : StepSound storage s action) :
    ∃ t, stepAll storage s action = .ok t ∧ HoldAll storage t := by
  cases action with
  | construct n granted =>
    rw [stepAll]
    cases hn : s n with
    | some v => exact ⟨s, rfl, h⟩
    | none => exact ⟨_, rfl, h.update n (holds_initial hsound)⟩
  | copyConstruct n other granted =>
    rw [stepAll]
    cases hn : s n with
    | some v => exact ⟨s, rfl, h⟩
    | none =>
      cases hw : s other with
      | none => exact ⟨s, rfl, h⟩
      | some w =>
        obtain ⟨xs, hxs⟩ := h other w hw
        exact h.copyConstruct n hxs (hsound w hw)
  | moveConstruct n other =>
    rw [stepAll]
    cases hn : s n with
    | some v => exact ⟨s, rfl, h⟩
    | none =>
      cases hw : s other with
      | none => exact ⟨s, rfl, h⟩
      | some w =>
        cases storage with
        | static capacity =>
          obtain ⟨xs, hxs⟩ := h other w hw
          exact h.copyConstruct n hxs fun _ => True.intro
        | dynamic elementSize pos reservation =>
          exact ⟨_, rfl, h.takeStorage hw fun c hc => by cases hc⟩
  | copyAssign n other granted =>
    rw [stepAll]
    cases hv : s n with
    | none => exact ⟨s, rfl, h⟩
    | some v =>
      cases hw : s other with
      | none => exact ⟨s, rfl, h⟩
      | some w =>
        exact h.assignElements hv hw (hsound v hv w hw)
  | moveAssign n other =>
    rw [stepAll]
    cases hv : s n with
    | none => exact ⟨s, rfl, h⟩
    | some v =>
      cases hw : s other with
      | none => exact ⟨s, rfl, h⟩
      | some w =>
        cases storage with
        | static capacity =>
          exact h.assignElements hv hw ⟨hsound v hv, fun _ _ => True.intro⟩
        | dynamic elementSize pos reservation =>
          obtain ⟨xs, hxs⟩ := h n v hv
          dsimp only
          rw [hxs.purge]
          exact ⟨_, rfl, h.takeStorage hw fun c hc => by cases hc⟩
  | call n op =>
    rw [stepAll]
    cases hv : s n with
    | none => exact ⟨s, rfl, h⟩
    | some v =>
      obtain ⟨xs, hxs⟩ := h n v hv
      obtain ⟨w, ok, ys, hrun, hys, -⟩ := (hsound v hv).run hxs
      dsimp only
      rw [hrun]
      exact ⟨_, rfl, h.update n hys⟩
  | destruct n =>
    rw [stepAll]
    cases hv : s n with
    | none => exact ⟨s, rfl, h⟩
    | some v =>
      obtain ⟨xs, hxs⟩ := h n v hv
      dsimp only
      rw [hxs.purge]
      refine ⟨_, rfl, fun m u hu => ?_⟩
      rw [Function.update_apply] at hu
      split_ifs at hu with hm
      exact h m u hu

end Run

/-- In a run of sound steps, every element is constructed once, used only in between and
destructed once. -/
theorem run_alive [DecidableEq Name] (storage : Storage) (actions : List (Action Name α))
    (h : MeetsAll (stepAll storage) (StepSound storage) (fun _ => none) actions) :
    RelatesAll (stepAll storage) (fun _ _ t => Alive t) (fun _ => none) actions := by
  refine relatesAll_of_meetsAll (HoldAll storage)
    (fun n v hv => by cases hv) ?_ actions h
  intro s action hs hsound
  obtain ⟨t, hstep, ht⟩ := hs.step hsound
  exact ⟨t, hstep, ht.alive, ht⟩

theorem run_alive_copy : RelatesAll (stepAll (.dynamic 4 (by decide) id)) (fun _ _ t => Alive t)
    (fun _ => none : Vectors ℕ Char)
    [.construct 0 true, .call 0 (.resize 3 (.value 'a') true), .copyConstruct 1 0 true,
      .call 1 (.eraseRange 0 1), .copyAssign 0 1 true, .moveAssign 1 1, .destruct 0] :=
  run_alive _ _ (by decide)

/-- The last element is destructed, and then it is assigned the first one. -/
theorem eraseRange_assignRaw : ¬ RelatesAll (stepAll (.static 2)) (fun _ _ t => Alive t)
    (fun _ => none : Vectors ℕ Char)
    [.construct 0 true, .call 0 (.resize 2 (.value 'a') true), .call 0 (.eraseRange 0 2)] := by
  rintro ⟨s₁, h₁, -, s₂, h₂, -, s₃, h₃, -⟩
  cases h₁
  cases h₂
  cases h₃

end Fimbulwinter.Vector
