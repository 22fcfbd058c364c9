import Fimbulwinter.TransitionRuns
import Mathlib.Data.List.Nodup
import Mathlib.Data.List.Range
import Mathlib.Logic.Equiv.Basic
import Mathlib.Logic.Function.Basic

/-! # Lifetimes of the values of `utility::optional`

Values of a type with a destructor are numbered in the order of their construction; what they are
is left out. -/
namespace Fimbulwinter.OptionalLifetimes

inductive Misuse
  /-- A value is used or destructed where none is alive. -/
  | raw
  deriving DecidableEq, Repr

/-- `optional_base_destructible`: the value that is alive in the storage, and `_has_value`. -/
structure Storage where
  value : Option ℕ
  hasValue : Bool
  deriving DecidableEq, Repr

variable {Name : Type*} [DecidableEq Name]

/-- The optionals of a program, and what has become of the values that have been constructed. -/
structure State (Name : Type*) where
  storages : Name → Option Storage
  /-- the number of values that have been constructed -/
  constructed : ℕ
  destroyed : List ℕ
  /-- values whose storage has been used for another one, or is gone -/
  lost : List ℕ

def State.initial : State Name := ⟨fun _ => none, 0, [], []⟩

inductive Action (Name : Type*)
  /-- the constructors without a value, and from `nullopt` -/
  | create (x : Name)
  /-- the constructors from arguments of a value -/
  | createWith (x : Name)
  /-- the copy and move constructors -/
  | createFrom (x y : Name)
  | assignNullopt (x : Name)
  | assignValue (x : Name)
  /-- the copy and move assignments -/
  | assign (x y : Name)
  | emplace (x : Name)
  | swap (x y : Name)
  | reset (x : Name)
  | destroy (x : Name)
  deriving DecidableEq, Repr

/-! ## Storage -/

/-- `construct`: whatever is alive in the storage is lost. -/
def construct (x : Name) (s : State Name) : State Name :=
  { s with
    storages := Function.update s.storages x
      ((s.storages x).map fun o => { o with value := some s.constructed })
    constructed := s.constructed + 1
    lost := s.lost ++ ((s.storages x).bind Storage.value).toList }

/-- `destruct` -/
def destruct (x : Name) (s : State Name) : Except Misuse (State Name) :=
  match (s.storages x).bind Storage.value with
  | none => .error .raw
  | some v => .ok { s with
      storages := Function.update s.storages x
        ((s.storages x).map fun o => { o with value := none })
      destroyed := s.destroyed ++ [v] }

def setHasValue (x : Name) (b : Bool) (s : State Name) : State Name :=
  { s with
    storages := Function.update s.storages x
      ((s.storages x).map fun o => { o with hasValue := b }) }

/-- The use of a value. -/
def use (x : Name) (s : State Name) : Except Misuse Unit :=
  if ((s.storages x).bind Storage.value).isSome then .ok () else .error .raw

/-- A temporary value, which `std::swap` moves one of its values to. -/
def temporary (s : State Name) : State Name :=
  { s with constructed := s.constructed + 1, destroyed := s.destroyed ++ [s.constructed] }

/-! ## Optionals -/

/-- Storage with `_has_value`, in which nothing is alive yet. -/
def allocate (x : Name) (hasValue : Bool) (s : State Name) : State Name :=
  { s with storages := Function.update s.storages x (some ⟨none, hasValue⟩) }

/-- The constructors from another optional. -/
def createFrom (x y : Name) (hasValue : Bool) (s : State Name) : Except Misuse (State Name) :=
  if hasValue then
    match use y s with
    | .error e => .error e
    | .ok _ => .ok (construct x (allocate x true s))
  else .ok (allocate x false s)

/-- `reset` -/
def reset (x : Name) (hasValue : Bool) (s : State Name) : Except Misuse (State Name) :=
  if hasValue then (destruct x s).map (setHasValue x false) else .ok s

/-- The copy and move assignments. -/
def assign (x y : Name) (hasValue hasValue' : Bool) (s : State Name) :
    Except Misuse (State Name) :=
  if hasValue then
    if hasValue' then
      match use x s with
      | .error e => .error e
      | .ok _ => (use y s).map fun _ => s
    else reset x true s
  else if hasValue' then (use y s).map fun _ => setHasValue x true (construct x s)
  else .ok s

/-- The assignment of a value. -/
def assignValue (x : Name) (hasValue : Bool) (s : State Name) : Except Misuse (State Name) :=
  if hasValue then (use x s).map fun _ => s else .ok (setHasValue x true (construct x s))

/-- `emplace` -/
def emplace (x : Name) (s : State Name) : State Name := setHasValue x true (construct x s)

/-- `take_ownership_of` -/
def takeOwnershipOf (x y : Name) (s : State Name) : Except Misuse (State Name) :=
  match use y s with
  | .error e => .error e
  | .ok _ => (destruct y (setHasValue x true (construct x s))).map (setHasValue y false)

/-- `swap` -/
def swap (x y : Name) (hasValue hasValue' : Bool) (s : State Name) : Except Misuse (State Name) :=
  if hasValue then
    if hasValue' then
      match use x s with
      | .error e => .error e
      | .ok _ => (use y s).map fun _ => temporary s
    else takeOwnershipOf y x s
  else if hasValue' then takeOwnershipOf x y s
  else .ok s

/-- The destructor, behind which the storage is gone. -/
def destroy (x : Name) (hasValue : Bool) (s : State Name) : Except Misuse (State Name) :=
  let release (s : State Name) : State Name :=
    { s with
      storages := Function.update s.storages x none
      lost := s.lost ++ ((s.storages x).bind Storage.value).toList }
  if hasValue then (destruct x s).map release else .ok (release s)

/-- A call for optionals that exist, or for a name that is not in use yet; other calls are none. -/
def step (s : State Name) : Action Name → Except Misuse (State Name)
  | .create x => if s.storages x = none then .ok (allocate x false s) else .ok s
  | .createWith x =>
    if s.storages x = none then .ok (construct x (allocate x true s)) else .ok s
  | .createFrom x y =>
    match s.storages x, s.storages y with
    | none, some o => createFrom x y o.hasValue s
    | _, _ => .ok s
  | .assignNullopt x | .reset x =>
    match s.storages x with
    | some o => reset x o.hasValue s
    | none => .ok s
  | .assignValue x =>
    match s.storages x with
    | some o => assignValue x o.hasValue s
    | none => .ok s
  | .assign x y =>
    match s.storages x, s.storages y with
    | some o, some p => assign x y o.hasValue p.hasValue s
    | _, _ => .ok s
  | .emplace x =>
    match s.storages x with
    | some _ => .ok (emplace x s)
    | none => .ok s
  | .swap x y =>
    match s.storages x, s.storages y with
    | some o, some p => swap x y o.hasValue p.hasValue s
    | _, _ => .ok s
  | .destroy x =>
    match s.storages x with
    | some o => destroy x o.hasValue s
    | none => .ok s

/-! ## Ownership -/

/-- The value that is alive in an optional. -/
def State.live (s : State Name) (x : Name) : Option ℕ := (s.storages x).bind Storage.value

def State.has (s : State Name) (x : Name) : Bool := (s.storages x).any Storage.hasValue

/-- Every value that has been constructed is alive in one optional, or has been destroyed once. -/
structure Accounted (live : Name → Option ℕ) (constructed : ℕ) (destroyed : List ℕ) : Prop where
  once : destroyed.Nodup
  alive : ∀ x v, live x = some v → v < constructed ∧ v ∉ destroyed
  apart : ∀ x y v, live x = some v → live y = some v → x = y
  ended : ∀ v ∈ destroyed, v < constructed
  accounted : ∀ v < constructed, v ∈ destroyed ∨ ∃ x, live x = some v

/-- What should hold of the optionals of a program. -/
structure Owned (s : State Name) : Prop where
  engaged : ∀ x, s.has x = true ↔ (s.live x).isSome = true
  /-- No value has been constructed over one that is alive. -/
  noneLost : s.lost = []
  accounted : Accounted s.live s.constructed s.destroyed
  /-- When there is no optional any more, every value has been destroyed exactly once. -/
  atEnd : (∀ x, s.storages x = none) → s.destroyed.Perm (List.range s.constructed)

/-- Values are emplaced in optionals without a value only. -/
def Guarded (s : State Name) : Action Name → Prop
  | .emplace x => s.has x = false
  | _ => True

variable {live : Name → Option ℕ} {n v : ℕ} {destroyed : List ℕ} {x y : Name}

theorem Accounted.construct (h : Accounted live n destroyed) (hx : live x = none) :
    Accounted (Function.update live x (some n)) (n + 1) destroyed := by
  have hother : ∀ y v, Function.update live x (some n) y = some v →
      y = x ∧ v = n ∨ y ≠ x ∧ live y = some v := by
    intro y v hy
    by_cases hyx : y = x
    · subst hyx
      rw [Function.update_self] at hy
      exact .inl ⟨rfl, (Option.some.inj hy).symm⟩
    · rw [Function.update_of_ne hyx] at hy
      exact .inr ⟨hyx, hy⟩
  refine ⟨h.once, fun y v hy => ?_, fun y z v hy hz => ?_, fun v hv => (h.ended v hv).trans (Nat.lt_succ_self n),
    fun v hv => ?_⟩
  · obtain ⟨-, rfl⟩ | ⟨-, hy⟩ := hother y v hy
    · exact ⟨Nat.lt_succ_self v, fun hv => (h.ended v hv).false⟩
    · exact ⟨(h.alive y v hy).1.trans (Nat.lt_succ_self n), (h.alive y v hy).2⟩
  · obtain ⟨rfl, hv⟩ | ⟨-, hy'⟩ := hother y v hy
    · obtain ⟨rfl, -⟩ | ⟨-, hz'⟩ := hother z v hz
      · rfl
      · exact absurd (h.alive z v hz').1 (by rw [hv]; exact lt_irrefl n)
    · obtain ⟨-, hv⟩ | ⟨-, hz'⟩ := hother z v hz
      · exact absurd (h.alive y v hy').1 (by rw [hv]; exact lt_irrefl n)
      · exact h.apart y z v hy' hz'
  · obtain hlt | rfl := Nat.lt_succ_iff_lt_or_eq.mp hv
    · refine (h.accounted v hlt).imp_right fun ⟨y, hy⟩ => ⟨y, ?_⟩
      have hyx : y ≠ x := by
        rintro rfl
        rw [hx] at hy
        cases hy
      rw [Function.update_of_ne hyx, hy]
    · exact .inr ⟨x, Function.update_self ..⟩

theorem Accounted.destruct (h : Accounted live n destroyed) (hx : live x = some v) :
    Accounted (Function.update live x none) n (destroyed ++ [v]) := by
  obtain ⟨hlt, hnot⟩ := h.alive x v hx
  have hother : ∀ y w, Function.update live x none y = some w → live y = some w ∧ w ≠ v := by
    intro y w hy
    have hyx : y ≠ x := by
      rintro rfl
      rw [Function.update_self] at hy
      cases hy
    rw [Function.update_of_ne hyx] at hy
    refine ⟨hy, ?_⟩
    rintro rfl
    exact hyx (h.apart y x w hy hx)
  refine ⟨?_, fun y w hy => ?_, fun y z w hy hz => ?_, fun w hw => ?_, fun w hw => ?_⟩
  · rw [← List.concat_eq_append]
    exact h.once.concat hnot
  · obtain ⟨hy, hne⟩ := hother y w hy
    refine ⟨(h.alive y w hy).1, fun hw => ?_⟩
    rcases List.mem_append.mp hw with hw | hw
    · exact (h.alive y w hy).2 hw
    · exact hne (List.mem_singleton.mp hw)
  · exact h.apart y z w (hother y w hy).1 (hother z w hz).1
  · rcases List.mem_append.mp hw with hw | hw
    · exact h.ended w hw
    · rwa [List.mem_singleton.mp hw]
  · rcases h.accounted w hw with hw | ⟨y, hy⟩
    · exact .inl (List.mem_append_left _ hw)
    · by_cases hyx : y = x
      · subst hyx
        rw [hx] at hy
        cases hy
        exact .inl (List.mem_append_right _ (List.mem_singleton_self v))
      · exact .inr ⟨y, by rw [Function.update_of_ne hyx, hy]⟩

omit [DecidableEq Name] in
theorem Accounted.temporary (h : Accounted live n destroyed) :
    Accounted live (n + 1) (destroyed ++ [n]) := by
  have hnew : n ∉ destroyed := fun hn => (h.ended n hn).false
  refine ⟨?_, fun y w hy => ?_, h.apart, fun w hw => ?_, fun w hw => ?_⟩
  · rw [← List.concat_eq_append]
    exact h.once.concat hnew
  · obtain ⟨hlt, hnot⟩ := h.alive y w hy
    refine ⟨hlt.trans (Nat.lt_succ_self n), fun hw => ?_⟩
    rcases List.mem_append.mp hw with hw | hw
    · exact hnot hw
    · exact hlt.ne (List.mem_singleton.mp hw)
  · rcases List.mem_append.mp hw with hw | hw
    · exact (h.ended w hw).trans (Nat.lt_succ_self n)
    · rw [List.mem_singleton.mp hw]
      exact Nat.lt_succ_self n
  · obtain hlt | rfl := Nat.lt_succ_iff_lt_or_eq.mp hw
    · exact (h.accounted w hlt).imp_left (List.mem_append_left _)
    · exact .inl (List.mem_append_right _ (List.mem_singleton_self w))

omit [DecidableEq Name] in
/-- When nothing is alive, every value has been destroyed exactly once. -/
theorem Accounted.atEnd (h : Accounted live n destroyed) (hlive : ∀ x, live x = none) :
    destroyed.Perm (List.range n) := by
  rw [List.perm_ext_iff_of_nodup h.once List.nodup_range]
  intro v
  rw [List.mem_range]
  refine ⟨h.ended v, fun hv => (h.accounted v hv).resolve_right ?_⟩
  rintro ⟨x, hx⟩
  rw [hlive x] at hx
  cases hx

omit [DecidableEq Name] in
/-- Names can be exchanged. -/
theorem Accounted.comp (h : Accounted live n destroyed) (e : Name ≃ Name) :
    Accounted (live ∘ e) n destroyed where
  once := h.once
  alive := fun x => h.alive (e x)
  apart := fun x y v hx hy => e.injective (h.apart (e x) (e y) v hx hy)
  ended := h.ended
  accounted := fun v hv => (h.accounted v hv).imp_right fun ⟨x, hx⟩ =>
    ⟨e.symm x, by rwa [Function.comp_apply, e.apply_symm_apply]⟩

omit [DecidableEq Name] in
theorem Accounted.perm {destroyed' : List ℕ} (h : Accounted live n destroyed)
    (hperm : destroyed.Perm destroyed') : Accounted live n destroyed' where
  once := hperm.nodup_iff.mp h.once
  alive := fun x v hv => ⟨(h.alive x v hv).1, fun hmem => (h.alive x v hv).2 (hperm.mem_iff.mpr hmem)⟩
  apart := h.apart
  ended := fun v hv => h.ended v (hperm.mem_iff.mpr hv)
  accounted := fun v hv => (h.accounted v hv).imp_left hperm.mem_iff.mp

/-- A value moves to a name that has none. -/
theorem Accounted.move (h : Accounted live n destroyed) (hx : live x = none) (y : Name) :
    Accounted (Function.update (Function.update live x (live y)) y none) n destroyed := by
  have hlive : Function.update (Function.update live x (live y)) y none =
      live ∘ Equiv.swap x y := by
    funext z
    by_cases hzy : z = y
    · rw [hzy, Function.update_self, Function.comp_apply, Equiv.swap_apply_right, hx]
    · rw [Function.update_of_ne hzy, Function.comp_apply]
      by_cases hzx : z = x
      · rw [hzx, Function.update_self, Equiv.swap_apply_left]
      · rw [Function.update_of_ne hzx, Equiv.swap_apply_of_ne_of_ne hzx hzy]
  rw [hlive]
  exact h.comp (Equiv.swap x y)

/-! ## Operations on storage -/

variable {s t : State Name} {b : Bool}

omit [DecidableEq Name] in
theorem Owned.of_accounted (hengaged : ∀ x, s.has x = true ↔ (s.live x).isSome = true)
    (hlost : s.lost = []) (h : Accounted s.live s.constructed s.destroyed) : Owned s :=
  ⟨hengaged, hlost, h, fun hnone => h.atEnd fun x => by rw [State.live, hnone x]; rfl⟩

omit [DecidableEq Name] in
theorem Owned.live_eq_none (h : Owned s) (hx : s.has x = false) : s.live x = none := by
  have hengaged := h.engaged x
  rw [hx] at hengaged
  exact Option.not_isSome_iff_eq_none.mp fun hsome => Bool.false_ne_true (hengaged.mpr hsome)

omit [DecidableEq Name] in
theorem Owned.live_eq_some (h : Owned s) (hx : s.has x = true) : ∃ v, s.live x = some v :=
  Option.isSome_iff_exists.mp ((h.engaged x).mp hx)

/-- What becomes of the values when the storage of one optional changes. -/
theorem live_of_storages {o : Option Storage} (h : t.storages = Function.update s.storages x o) :
    t.live = Function.update s.live x (o.bind Storage.value) ∧
      t.has = Function.update s.has x (o.any Storage.hasValue) := by
  constructor
  · funext y
    by_cases hy : y = x
    · subst hy
      simp only [State.live, h, Function.update_self]
    · simp only [State.live, h, Function.update_of_ne hy]
  · funext y
    by_cases hy : y = x
    · subst hy
      simp only [State.has, h, Function.update_self]
    · simp only [State.has, h, Function.update_of_ne hy]

/-- An optional that gets storage in which a value is alive exactly if `_has_value` is set. -/
theorem Owned.of_storages {o : Option Storage} (h : Owned s)
    (hstorages : t.storages = Function.update s.storages x o)
    (ho : o.any Storage.hasValue = true ↔ (o.bind Storage.value).isSome = true)
    (hlost : t.lost = [])
    (haccounted : Accounted (Function.update s.live x (o.bind Storage.value)) t.constructed
      t.destroyed) : Owned t := by
  obtain ⟨hlive, hhas⟩ := live_of_storages hstorages
  refine .of_accounted (fun y => ?_) hlost (by rwa [hlive])
  rw [hlive, hhas]
  by_cases hy : y = x
  · subst hy
    rw [Function.update_self, Function.update_self]
    exact ho
  · rw [Function.update_of_ne hy, Function.update_of_ne hy]
    exact h.engaged y

theorem storages_construct (x : Name) (s : State Name) : (construct x s).storages =
    Function.update s.storages x ((s.storages x).map fun o => { o with value := some s.constructed }) :=
  rfl

theorem storages_setHasValue (x : Name) (b : Bool) (s : State Name) : (setHasValue x b s).storages =
    Function.update s.storages x ((s.storages x).map fun o => { o with hasValue := b }) := rfl

/-- A value is constructed in an optional without one. -/
theorem Owned.engage {o : Storage} (h : Owned s) (hx : s.storages x = some o)
    (hhas : s.has x = false) : Owned (setHasValue x true (construct x s)) := by
  have hnone := h.live_eq_none hhas
  have hstorages : (setHasValue x true (construct x s)).storages =
      Function.update s.storages x (some ⟨some s.constructed, true⟩) := by
    rw [storages_setHasValue, storages_construct, Function.update_self, Function.update_idem, hx]
    rfl
  have hlost : (setHasValue x true (construct x s)).lost = [] := by
    change s.lost ++ (s.live x).toList = []
    rw [h.noneLost, hnone]
    rfl
  exact h.of_storages hstorages (iff_of_true rfl rfl) hlost (h.accounted.construct hnone)

theorem destruct_eq (hx : s.live x = some v) : destruct x s = .ok { s with
    storages := Function.update s.storages x
      ((s.storages x).map fun o => { o with value := none })
    destroyed := s.destroyed ++ [v] } := by
  rw [State.live] at hx
  rw [destruct, hx]

/-- An optional with a value is reset. -/
theorem Owned.reset {o : Storage} (h : Owned s) (hx : s.storages x = some o) (hhas : s.has x = true) :
    ∃ t, (destruct x s).map (setHasValue x false) = .ok t ∧ Owned t := by
  obtain ⟨v, hv⟩ := h.live_eq_some hhas
  refine ⟨_, by rw [destruct_eq hv]; rfl, ?_⟩
  have hstorages : Function.update (Function.update s.storages x
      ((s.storages x).map fun o => { o with value := none })) x
      (((Function.update s.storages x ((s.storages x).map fun o => { o with value := none })) x).map
        fun o => { o with hasValue := false }) =
      Function.update s.storages x (some ⟨none, false⟩) := by
    rw [Function.update_self, Function.update_idem, hx]
    rfl
  exact h.of_storages hstorages (iff_of_false Bool.false_ne_true Bool.false_ne_true) h.noneLost
    (h.accounted.destruct hv)

omit [DecidableEq Name] in
theorem Owned.use_ok (h : Owned s) (hhas : s.has x = true) : use x s = .ok () :=
  if_pos ((h.engaged x).mp hhas)

omit [DecidableEq Name] in
/-- Optionals with a value and without one are told apart by their storage. -/
theorem has_eq {o : Storage} (hx : s.storages x = some o) : s.has x = o.hasValue := by
  rw [State.has, hx]
  rfl

/-- A value moves to an optional without one. -/
theorem Owned.takeOwnershipOf {o p : Storage} (h : Owned s) (hx : s.storages x = some o)
    (hy : s.storages y = some p) (hhas : s.has x = false) (hhas' : s.has y = true) :
    ∃ t, takeOwnershipOf x y s = .ok t ∧ Owned t := by
  have hne : y ≠ x := by
    rintro rfl
    rw [hhas] at hhas'
    cases hhas'
  have hstorage : (setHasValue x true (construct x s)).storages y = some p := by
    rw [storages_setHasValue, storages_construct, Function.update_of_ne hne, Function.update_of_ne hne, hy]
  rw [OptionalLifetimes.takeOwnershipOf, h.use_ok hhas']
  refine (h.engage hx hhas).reset hstorage ?_
  rw [has_eq hstorage, ← has_eq hy, hhas']

theorem Owned.swap {o p : Storage} (h : Owned s) (hx : s.storages x = some o)
    (hy : s.storages y = some p) : ∃ t, swap x y o.hasValue p.hasValue s = .ok t ∧ Owned t := by
  rw [← has_eq hx, ← has_eq hy]
  cases hhas : s.has x with
  | true =>
    cases hhas' : s.has y with
    | true =>
      rw [OptionalLifetimes.swap, if_pos rfl, if_pos rfl, h.use_ok hhas, h.use_ok hhas']
      exact ⟨_, rfl, .of_accounted h.engaged h.noneLost h.accounted.temporary⟩
    | false => exact h.takeOwnershipOf hy hx hhas' hhas
  | false =>
    cases hhas' : s.has y with
    | true => exact h.takeOwnershipOf hx hy hhas hhas'
    | false => exact ⟨s, rfl, h⟩

theorem Owned.assign {o p : Storage} (h : Owned s) (hx : s.storages x = some o)
    (hy : s.storages y = some p) : ∃ t, assign x y o.hasValue p.hasValue s = .ok t ∧ Owned t := by
  rw [← has_eq hx, ← has_eq hy]
  cases hhas : s.has x with
  | true =>
    cases hhas' : s.has y with
    | true =>
      rw [OptionalLifetimes.assign, if_pos rfl, if_pos rfl, h.use_ok hhas, h.use_ok hhas']
      exact ⟨_, rfl, h⟩
    | false => exact h.reset hx hhas
  | false =>
    cases hhas' : s.has y with
    | true =>
      rw [OptionalLifetimes.assign, if_neg Bool.false_ne_true, if_pos rfl, h.use_ok hhas']
      exact ⟨_, rfl, h.engage hx hhas⟩
    | false => exact ⟨s, rfl, h⟩

theorem Owned.assignValue {o : Storage} (h : Owned s) (hx : s.storages x = some o) :
    ∃ t, assignValue x o.hasValue s = .ok t ∧ Owned t := by
  rw [← has_eq hx]
  cases hhas : s.has x with
  | true =>
    rw [OptionalLifetimes.assignValue, if_pos rfl, h.use_ok hhas]
    exact ⟨_, rfl, h⟩
  | false => exact ⟨_, rfl, h.engage hx hhas⟩

omit [DecidableEq Name] in
theorem live_eq_none_of_storages (hx : s.storages x = none) : s.live x = none := by
  rw [State.live, hx]
  rfl

/-- A new optional without a value. -/
theorem Owned.allocate (h : Owned s) (hx : s.storages x = none) : Owned (allocate x false s) := by
  refine h.of_storages rfl (iff_of_false Bool.false_ne_true Bool.false_ne_true) h.noneLost ?_
  change Accounted (Function.update s.live x none) s.constructed s.destroyed
  rw [← live_eq_none_of_storages hx, Function.update_eq_self]
  exact h.accounted

/-- A new optional with a value. -/
theorem Owned.allocateWith (h : Owned s) (hx : s.storages x = none) :
    Owned (construct x (OptionalLifetimes.allocate x true s)) := by
  have hstorages : (construct x (OptionalLifetimes.allocate x true s)).storages =
      Function.update s.storages x (some ⟨some s.constructed, true⟩) := by
    rw [storages_construct, OptionalLifetimes.allocate]
    dsimp only
    rw [Function.update_self, Function.update_idem]
    rfl
  have hlost : (construct x (OptionalLifetimes.allocate x true s)).lost = [] := by
    change s.lost ++ ((Function.update s.storages x (some ⟨none, true⟩) x).bind Storage.value).toList = []
    rw [h.noneLost, Function.update_self]
    rfl
  exact h.of_storages hstorages (iff_of_true rfl rfl) hlost
    (h.accounted.construct (live_eq_none_of_storages hx))

theorem Owned.createFrom {p : Storage} (h : Owned s) (hx : s.storages x = none)
    (hy : s.storages y = some p) : ∃ t, createFrom x y p.hasValue s = .ok t ∧ Owned t := by
  rw [← has_eq hy]
  cases hhas : s.has y with
  | true =>
    rw [OptionalLifetimes.createFrom, if_pos rfl, h.use_ok hhas]
    exact ⟨_, rfl, h.allocateWith hx⟩
  | false => exact ⟨_, rfl, h.allocate hx⟩

theorem Owned.destroy {o : Storage} (h : Owned s) (hx : s.storages x = some o) :
    ∃ t, destroy x o.hasValue s = .ok t ∧ Owned t := by
  rw [← has_eq hx]
  cases hhas : s.has x with
  | true =>
    obtain ⟨v, hv⟩ := h.live_eq_some hhas
    refine ⟨_, by rw [OptionalLifetimes.destroy, if_pos rfl, destruct_eq hv]; rfl, ?_⟩
    refine h.of_storages (o := none) (Function.update_idem ..)
      (iff_of_false Bool.false_ne_true Bool.false_ne_true) ?_ (h.accounted.destruct hv)
    change s.lost ++ ((Function.update s.storages x
      ((s.storages x).map fun o => { o with value := none }) x).bind Storage.value).toList = []
    rw [h.noneLost, Function.update_self, hx]
    rfl
  | false =>
    have hnone := h.live_eq_none hhas
    refine ⟨_, rfl, h.of_storages (o := none) rfl
      (iff_of_false Bool.false_ne_true Bool.false_ne_true) ?_ ?_⟩
    · change s.lost ++ (s.live x).toList = []
      rw [h.noneLost, hnone]
      rfl
    · change Accounted (Function.update s.live x none) s.constructed s.destroyed
      rw [← hnone, Function.update_eq_self]
      exact h.accounted

/-! ## Runs -/

omit [DecidableEq Name] in
theorem owned_initial : Owned (State.initial : State Name) := by
  refine .of_accounted (fun x => Iff.rfl) rfl ⟨List.nodup_nil, fun x v hv => ?_, fun x y v hv => ?_,
    fun v hv => ?_, fun v hv => ?_⟩
  · cases hv
  · cases hv
  · cases hv
  · exact absurd hv (Nat.not_lt_zero v)

/-- What a guarded action makes of optionals that own their values. -/
theorem Owned.step (h : Owned s) {a : Action Name} (hguarded : Guarded s a) :
    ∃ t, step s a = .ok t ∧ Owned t := by
  cases a with
  | create x =>
    rw [OptionalLifetimes.step]
    split_ifs with hx
    · exact ⟨_, rfl, h.allocate hx⟩
    · exact ⟨s, rfl, h⟩
  | createWith x =>
    rw [OptionalLifetimes.step]
    split_ifs with hx
    · exact ⟨_, rfl, h.allocateWith hx⟩
    · exact ⟨s, rfl, h⟩
  | createFrom x y =>
    rw [OptionalLifetimes.step]
    split
    next p hx hy => exact h.createFrom hx hy
    · exact ⟨s, rfl, h⟩
  | assignNullopt x | reset x =>
    rw [OptionalLifetimes.step]
    split
    next o hx =>
      rw [← has_eq hx, OptionalLifetimes.reset]
      split_ifs with hhas
      · exact h.reset hx hhas
      · exact ⟨s, rfl, h⟩
    · exact ⟨s, rfl, h⟩
  | assignValue x =>
    rw [OptionalLifetimes.step]
    split
    next o hx => exact h.assignValue hx
    · exact ⟨s, rfl, h⟩
  | assign x y =>
    rw [OptionalLifetimes.step]
    split
    next o p hx hy => exact h.assign hx hy
    · exact ⟨s, rfl, h⟩
  | emplace x =>
    rw [OptionalLifetimes.step]
    split
    next o hx => exact ⟨_, rfl, h.engage hx hguarded⟩
    · exact ⟨s, rfl, h⟩
  | swap x y =>
    rw [OptionalLifetimes.step]
    split
    next o p hx hy => exact h.swap hx hy
    · exact ⟨s, rfl, h⟩
  | destroy x =>
    rw [OptionalLifetimes.step]
    split
    next o hx => exact h.destroy hx
    · exact ⟨s, rfl, h⟩

/-- An emplacement over a value that is alive loses it. -/
theorem Owned.guarded (h : Owned s) {a : Action Name} (hstep : OptionalLifetimes.step s a = .ok t)
    (ht : Owned t) : Guarded s a := by
  cases a with
  | emplace x =>
    by_contra hhas
    obtain ⟨v, hv⟩ := h.live_eq_some (eq_true_of_ne_false hhas)
    rw [OptionalLifetimes.step] at hstep
    split at hstep
    · have hlost := ht.noneLost
      rw [← Except.ok.inj hstep] at hlost
      change s.lost ++ (s.live x).toList = [] at hlost
      rw [hv] at hlost
      exact List.cons_ne_nil v [] (List.append_eq_nil_iff.mp hlost).2
    next hx =>
      rw [live_eq_none_of_storages hx] at hv
      cases hv
  | _ => exact trivial

/-- In a run every call goes through and leaves every value owned exactly if values are emplaced in
optionals without a value only. -/
theorem lifetimes_owned_iff (actions : List (Action Name)) :
    RelatesAll step (fun _ _ t => Owned t) State.initial actions ↔
      MeetsAll step Guarded State.initial actions :=
  relatesAll_iff_meetsAll Owned owned_initial
    (fun h hguarded => by
      obtain ⟨t, ht, howned⟩ := h.step hguarded
      exact ⟨t, ht, howned, howned⟩)
    (fun h hstep ht => h.guarded hstep ht) actions

/-- In a guarded run values are owned in every state, and when all optionals are gone, each has
been destroyed exactly once. -/
theorem reached_owned {s : State Name} (h : Reached step Guarded State.initial s) : Owned s :=
  h.invariant owned_initial fun hs hguarded hstep => by
    obtain ⟨t, ht, howned⟩ := hs.step hguarded
    obtain rfl := Except.ok.inj (ht.symm.trans hstep)
    exact howned

/-- The value of an optional is lost when another one is emplaced. -/
theorem emplace_loses : ∃ s : State ℕ,
    runAll step State.initial [.createWith 0, .emplace 0, .destroy 0] = .ok s ∧ s.constructed = 2 ∧
      s.destroyed = [1] ∧ s.lost = [0] ∧ s.storages 0 = none ∧
      ¬ RelatesAll step (fun _ _ t => Owned t) (State.initial : State ℕ)
        [.createWith 0, .emplace 0, .destroy 0] := by
  refine ⟨_, rfl, rfl, rfl, rfl, rfl, ?_⟩
  rintro ⟨s, hs, -, t, ht, howned, -⟩
  cases hs
  cases ht
  cases howned.noneLost

end Fimbulwinter.OptionalLifetimes
