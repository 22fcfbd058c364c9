import Fimbulwinter.OptionalLifetimes

/-! # Lifetimes of the alternatives of `utility::variant`

Values are numbered in the order of their construction, and have a content that moves with them.
`query` has cases for 128 alternatives. -/
namespace Fimbulwinter.VariantLifetimes
open OptionalLifetimes (Accounted)

inductive Misuse
  /-- An alternative is constructed over a live one. -/
  | over
  /-- An alternative is used or destructed where it is not alive. -/
  | raw
  /-- `query` finds no case for the index. -/
  | unreachable
  deriving DecidableEq, Repr

/-- A value that is alive in the storage, as which alternative, and what it is. -/
structure Alive (n : ℕ) (V : Type) where
  alternative : Fin n
  number : ℕ
  content : V

/-- `variant_storage`: `index_`, where `none` is `variant_npos`, and the value in `union_`. -/
structure Storage (n : ℕ) (V : Type) where
  index : Option (Fin n)
  alive : Option (Alive n V)

/-- The variants of a program, `none` among them for the temporary one of an operation, and what has
become of the values that have been constructed. -/
structure State (n : ℕ) (V Name : Type) where
  storages : Option Name → Option (Storage n V)
  /-- the number of values that have been constructed -/
  constructed : ℕ
  destroyed : List ℕ

variable {n : ℕ} {V Name : Type} [DecidableEq Name]

def State.initial : State n V Name := ⟨fun _ => none, 0, []⟩

inductive Action (n : ℕ) (V Name : Type)
  /-- the constructors from arguments of an alternative; the default one is that of the first -/
  | createWith (x : Name) (i : Fin n) (v : V)
  | copyFrom (x y : Name)
  | moveFrom (x y : Name)
  | copyAssign (x y : Name)
  | moveAssign (x y : Name)
  | assign (x : Name) (i : Fin n) (v : V)
  | emplace (x : Name) (i : Fin n) (v : V)
  | swap (x y : Name)
  | destroy (x : Name)

/-! ## Storage -/

section Storage

variable (x y : Option Name) (s : State n V Name)

def State.index : Option (Fin n) := (s.storages x).bind Storage.index

def State.alive : Option (Alive n V) := (s.storages x).bind Storage.alive

def setStorage (o : Option (Storage n V)) : State n V Name :=
  { s with storages := Function.update s.storages x o }

def setIndex (index : Option (Fin n)) : State n V Name :=
  setStorage x s ((s.storages x).map fun o => { o with index := index })

def setAlive (alive : Option (Alive n V)) : State n V Name :=
  setStorage x s ((s.storages x).map fun o => { o with alive := alive })

/-- `query`: the alternative that the visitor is called with. -/
def query : Except Misuse (Fin n) :=
  match s.index x with
  | some i => if (i : ℕ) < 128 then .ok i else .error .unreachable
  | none => .error .unreachable

/-- What is read from an alternative. -/
def read (i : Fin n) : Except Misuse V :=
  match s.alive x with
  | some a => if a.alternative = i then .ok a.content else .error .raw
  | none => .error .raw

/-- What is assigned to an alternative. -/
def write (i : Fin n) (v : V) : Except Misuse (State n V Name) :=
  match s.alive x with
  | some a =>
    if a.alternative = i then .ok (setAlive x s (some { a with content := v })) else .error .raw
  | none => .error .raw

/-- `construct<I>` -/
def construct (i : Fin n) (v : V) : Except Misuse (State n V Name) :=
  match s.alive x with
  | some _ => .error .over
  | none => .ok { setAlive x s (some ⟨i, s.constructed, v⟩) with constructed := s.constructed + 1 }

/-- `destruct<I>` -/
def destructAlternative (i : Fin n) : Except Misuse (State n V Name) :=
  match s.alive x with
  | some a =>
    if a.alternative = i then
      .ok { setAlive x s none with destroyed := s.destroyed ++ [a.number] }
    else .error .raw
  | none => .error .raw

/-- `destruct` -/
def destruct : Except Misuse (State n V Name) := do
  let i ← query x s
  let s ← destructAlternative x s i
  return setIndex x s none

/-- `copy_constructor` -/
def copyConstructor : Except Misuse (Fin n × State n V Name) := do
  let i ← query y s
  let v ← read y s i
  let s ← construct x s i v
  return (i, s)

/-- `copy_construct` -/
def copyConstruct : Except Misuse (State n V Name) := do
  let (i, s) ← copyConstructor x y s
  return setIndex x s (some i)

variable (husk : V → V)

/-- `move_constructor`; what is left of a value that is moved is its husk. -/
def moveConstructor : Except Misuse (Fin n × State n V Name) := do
  let i ← query y s
  let v ← read y s i
  let s ← write y s i (husk v)
  let s ← construct x s i v
  return (i, s)

/-- `move_construct` -/
def moveConstruct : Except Misuse (State n V Name) := do
  let (i, s) ← moveConstructor x y s husk
  return setIndex x s (some i)

/-- `copy_assign` -/
def copyAssignVisit : Except Misuse (State n V Name) := do
  let i ← query y s
  let v ← read y s i
  write x s i v

/-- `move_assign` -/
def moveAssignVisit : Except Misuse (State n V Name) := do
  let i ← query y s
  let v ← read y s i
  let s ← write y s i (husk v)
  write x s i v

/-- `swap_visit`: `std::swap` moves one of its values to a temporary one. -/
def swapVisit : Except Misuse (State n V Name) := do
  let i ← query y s
  let v ← read x s i
  let s ← write x s i (husk v)
  let w ← read y s i
  let s ← write y s i (husk w)
  let s ← write x s i w
  let s ← write y s i v
  return { s with constructed := s.constructed + 1, destroyed := s.destroyed ++ [s.constructed] }

/-! ## Variants -/

/-- The copy constructor. -/
def copyFrom : Except Misuse (State n V Name) :=
  if s.index y ≠ none then
    (copyConstructor x y (setStorage x s (some ⟨s.index y, none⟩))).map Prod.snd
  else .ok (setStorage x s (some ⟨s.index y, none⟩))

/-- The move constructor. -/
def moveFrom : Except Misuse (State n V Name) :=
  if s.index y ≠ none then
    (moveConstructor x y (setStorage x s (some ⟨s.index y, none⟩)) husk).map Prod.snd
  else .ok (setStorage x s (some ⟨s.index y, none⟩))

/-- The destructor. -/
def destroy : Except Misuse (State n V Name) :=
  if s.index x ≠ none then do
    let i ← query x s
    let s ← destructAlternative x s i
    return setStorage x s none
  else .ok (setStorage x s none)

/-- The copy assignment. -/
def copyAssign : Except Misuse (State n V Name) :=
  if s.index y ≠ none then
    if s.index x = s.index y then copyAssignVisit x y s
    else if s.index x ≠ none then do
      let s ← copyFrom none y s
      let s ← destruct x s
      let s ← moveConstruct x none s husk
      destroy none s
    else copyConstruct x y s
  else if s.index x ≠ none then destruct x s
  else .ok s

/-- What is alive, if anything, is destructed for something else. -/
def clear : Except Misuse (State n V Name) :=
  if s.index x ≠ none then destruct x s else .ok s

/-- The move assignment. -/
def moveAssign : Except Misuse (State n V Name) :=
  if s.index x = s.index y then
    if s.index x ≠ none then moveAssignVisit x y s husk else .ok s
  else do
    let s ← clear x s
    if s.index y ≠ none then moveConstruct x y s husk else .ok s

/-- `emplace`, and the part of `assign` for another alternative. -/
def emplace (i : Fin n) (v : V) : Except Misuse (State n V Name) := do
  let s ← clear x s
  let s ← construct x s i v
  return setIndex x s (some i)

/-- `assign` -/
def assign (i : Fin n) (v : V) : Except Misuse (State n V Name) :=
  if s.index x = some i then write x s i v else emplace x s i v

/-- `swap` -/
def swap : Except Misuse (State n V Name) :=
  if s.index y ≠ none then
    if s.index x = s.index y then swapVisit x y s husk
    else if s.index x ≠ none then do
      let s ← moveFrom none x s husk
      let s ← destruct x s
      let s ← moveConstruct x y s husk
      let s ← destruct y s
      let s ← moveConstruct y none s husk
      destroy none s
    else do
      let s ← moveConstruct x y s husk
      destruct y s
  else if s.index x ≠ none then do
    let s ← moveConstruct y x s husk
    destruct x s
  else .ok s

end Storage

/-- A call for variants that exist, or for a name that is not in use yet; other calls are none. -/
def step (husk : V → V) (s : State n V Name) : Action n V Name → Except Misuse (State n V Name)
  | .createWith x i v =>
    match s.storages x with
    | none => construct x (setStorage x s (some ⟨some i, none⟩)) i v
    | some _ => .ok s
  | .copyFrom x y =>
    match s.storages x, s.storages y with
    | none, some _ => copyFrom x y s
    | _, _ => .ok s
  | .moveFrom x y =>
    match s.storages x, s.storages y with
    | none, some _ => moveFrom x y s husk
    | _, _ => .ok s
  | .copyAssign x y =>
    match s.storages x, s.storages y with
    | some _, some _ => copyAssign x y s husk
    | _, _ => .ok s
  | .moveAssign x y =>
    match s.storages x, s.storages y with
    | some _, some _ => moveAssign x y s husk
    | _, _ => .ok s
  | .assign x i v =>
    match s.storages x with
    | some _ => assign x s i v
    | none => .ok s
  | .emplace x i v =>
    match s.storages x with
    | some _ => emplace x s i v
    | none => .ok s
  | .swap x y =>
    match s.storages x, s.storages y with
    | some _, some _ => swap x y s husk
    | _, _ => .ok s
  | .destroy x =>
    match s.storages x with
    | some _ => destroy x s
    | none => .ok s

/-! ## Ownership -/

def State.live (s : State n V Name) (x : Option Name) : Option ℕ := (s.alive x).map Alive.number

/-- What should hold of the variants of a program. -/
structure Owned (s : State n V Name) : Prop where
  /-- The alternative that is alive is the one named by `index_`. -/
  named : ∀ x, s.index x = (s.alive x).map Alive.alternative
  accounted : Accounted s.live s.constructed s.destroyed
  /-- No temporary variant is left. -/
  settled : s.storages none = none
  /-- When there is no variant any more, every value has been destroyed exactly once. -/
  atEnd : (∀ x, s.storages x = none) → s.destroyed.Perm (List.range s.constructed)

/-- The alternative of a variant, and its value. -/
def State.value (s : State n V Name) (x : Name) : Option (Fin n × V) :=
  (s.alive (some x)).map fun a => (a.alternative, a.content)

/-- What an operation should make of the variants. -/
structure Sound (s : State n V Name) (action : Action n V Name) (t : State n V Name) : Prop where
  owned : Owned t
  exchanged : ∀ x y, action = .swap x y → s.storages (some x) ≠ none →
    s.storages (some y) ≠ none → t.value x = s.value y ∧ t.value y = s.value x

/-- Storage in which the alternative that is alive is named. -/
def slot (a : Option (Alive n V)) : Storage n V := ⟨a.map Alive.alternative, a⟩

/-- Values are alive under the names of their alternatives, also in a temporary variant. -/
structure Consistent (s : State n V Name) : Prop where
  named : ∀ x o, s.storages x = some o → o = slot o.alive
  accounted : Accounted s.live s.constructed s.destroyed

variable {s t : State n V Name} {x y : Option Name} {a b : Alive n V}

omit [DecidableEq Name] in
theorem Owned.consistent (h : Owned s) : Consistent s where
  named := fun x o hx => by
    have hnamed := h.named x
    rw [State.index, State.alive, hx] at hnamed
    exact congrArg (Storage.mk · o.alive) hnamed
  accounted := h.accounted

omit [DecidableEq Name] in
theorem Consistent.owned (h : Consistent s) (hsettled : s.storages none = none) : Owned s where
  named := fun x => by
    cases hx : s.storages x with
    | none => rw [State.index, State.alive, hx]; rfl
    | some o =>
      rw [State.index, State.alive, hx]
      exact congrArg Storage.index (h.named x o hx)
  accounted := h.accounted
  settled := hsettled
  atEnd := fun hnone => h.accounted.atEnd fun x => by rw [State.live, State.alive, hnone x]; rfl

/-- What is alive, when the storage of one variant changes. -/
theorem live_of_storages {o : Option (Storage n V)}
    (h : t.storages = Function.update s.storages x o) :
    t.live = Function.update s.live x ((o.bind Storage.alive).map Alive.number) := by
  funext y
  by_cases hy : y = x
  · subst hy
    simp only [State.live, State.alive, h, Function.update_self]
  · simp only [State.live, State.alive, h, Function.update_of_ne hy]

/-- A variant gets storage in which the alternative that is alive is named. -/
theorem Consistent.of_storages {o : Option (Storage n V)} (h : Consistent s)
    (hstorages : t.storages = Function.update s.storages x o)
    (ho : ∀ p, o = some p → p = slot p.alive)
    (haccounted : Accounted (Function.update s.live x ((o.bind Storage.alive).map Alive.number))
      t.constructed t.destroyed) : Consistent t where
  named := fun y p hy => by
    rw [hstorages] at hy
    by_cases hyx : y = x
    · subst hyx
      rw [Function.update_self] at hy
      exact ho p hy
    · rw [Function.update_of_ne hyx] at hy
      exact h.named y p hy
  accounted := by rwa [live_of_storages hstorages]

omit [DecidableEq Name] in
theorem alive_eq {o : Option (Alive n V)} (hx : s.storages x = some (slot o)) : s.alive x = o := by
  rw [State.alive, hx]
  rfl

omit [DecidableEq Name] in
theorem index_eq {o : Option (Alive n V)} (hx : s.storages x = some (slot o)) :
    s.index x = o.map Alive.alternative := by
  rw [State.index, hx]
  rfl

omit [DecidableEq Name] in
theorem query_eq (hn : n ≤ 128) (hx : s.storages x = some (slot (some a))) :
    query x s = .ok a.alternative := by
  rw [query, index_eq hx]
  exact if_pos (a.alternative.isLt.trans_le hn)

omit [DecidableEq Name] in
theorem read_eq {i : Fin n} (hx : s.storages x = some (slot (some a))) (hi : a.alternative = i) :
    read x s i = .ok a.content := by
  rw [read, alive_eq hx]
  exact if_pos hi

theorem write_eq {i : Fin n} (hx : s.storages x = some (slot (some a))) (hi : a.alternative = i)
    (v : V) : write x s i v = .ok (setStorage x s (some (slot (some { a with content := v })))) := by
  rw [write, alive_eq hx]
  simp only [if_pos hi, setAlive, hx]
  rfl

theorem construct_eq {index : Option (Fin n)} (hx : s.storages x = some ⟨index, none⟩) (i : Fin n)
    (v : V) : construct x s i v = .ok { setStorage x s (some ⟨index, some ⟨i, s.constructed, v⟩⟩) with
      constructed := s.constructed + 1 } := by
  rw [construct, State.alive, hx]
  simp only [setAlive, hx]
  rfl

theorem destructAlternative_eq (hx : s.storages x = some (slot (some a))) :
    destructAlternative x s a.alternative =
      .ok { setStorage x s (some ⟨some a.alternative, none⟩) with
        destroyed := s.destroyed ++ [a.number] } := by
  rw [destructAlternative, alive_eq hx]
  simp only [if_pos, setAlive, hx]
  rfl

/-! ## Operations on one alternative -/

omit [DecidableEq Name] in
theorem live_eq {o : Option (Alive n V)} (hx : s.storages x = some (slot o)) :
    s.live x = o.map Alive.number := by
  rw [State.live, alive_eq hx]

omit [DecidableEq Name] in
theorem live_eq_none (hx : s.storages x = none) : s.live x = none := by
  rw [State.live, State.alive, hx]
  rfl

theorem Consistent.write (h : Consistent s) (hx : s.storages x = some (slot (some a))) (v : V) :
    Consistent (setStorage x s (some (slot (some { a with content := v })))) := by
  refine h.of_storages rfl (fun p hp => ?_) ?_
  · rw [← Option.some.inj hp]
    rfl
  · have hlive : s.live x = some a.number := live_eq hx
    change Accounted (Function.update s.live x (some a.number)) s.constructed s.destroyed
    rw [← hlive, Function.update_eq_self]
    exact h.accounted

/-- A value is constructed in a variant in which nothing is alive. -/
theorem Consistent.construct (h : Consistent s) (hx : s.live x = none) {i : Fin n} {v : V}
    (hstorages : t.storages = Function.update s.storages x
      (some (slot (some ⟨i, s.constructed, v⟩))))
    (hconstructed : t.constructed = s.constructed + 1) (hdestroyed : t.destroyed = s.destroyed) :
    Consistent t := by
  refine h.of_storages hstorages (fun p hp => ?_) ?_
  · rw [← Option.some.inj hp]
    rfl
  · rw [hconstructed, hdestroyed]
    exact h.accounted.construct hx

/-- A variant loses its value, and its storage if it is gone itself. -/
theorem Consistent.remove {o : Option (Storage n V)} (h : Consistent s)
    (hx : s.storages x = some (slot (some a)))
    (ho : o = some (slot none) ∨ o = none) (hstorages : t.storages = Function.update s.storages x o)
    (hconstructed : t.constructed = s.constructed)
    (hdestroyed : t.destroyed = s.destroyed ++ [a.number]) : Consistent t := by
  have halive : (o.bind Storage.alive).map Alive.number = none := by
    rcases ho with rfl | rfl <;> rfl
  refine h.of_storages hstorages (fun p hp => ?_) ?_
  · rcases ho with rfl | rfl
    · rw [← Option.some.inj hp]
      rfl
    · cases hp
  · rw [halive, hconstructed, hdestroyed]
    exact h.accounted.destruct (live_eq hx)

/-- What an operation leaves behind: the storages of all variants, and values in their order. -/
def Leaves (op : Except Misuse (State n V Name))
    (storages : Option Name → Option (Storage n V)) : Prop :=
  ∃ t, op = .ok t ∧ Consistent t ∧ t.storages = storages

variable (hn : n ≤ 128)
include hn

theorem Consistent.destruct (h : Consistent s) (hx : s.storages x = some (slot (some a))) :
    Leaves (destruct x s) (Function.update s.storages x (some (slot none))) := by
  refine ⟨{ setStorage x s (some (slot none)) with destroyed := s.destroyed ++ [a.number] }, ?_,
    h.remove hx (.inl rfl) rfl rfl rfl, rfl⟩
  rw [VariantLifetimes.destruct, query_eq hn hx]
  change (destructAlternative x s a.alternative >>= fun s => pure (setIndex x s none)) = _
  rw [destructAlternative_eq hx]
  change Except.ok (setIndex x _ none) = _
  simp only [setIndex, setStorage, Function.update_self, Option.map_some, Function.update_idem]
  rfl

theorem Consistent.destroy (h : Consistent s) {o : Option (Alive n V)}
    (hx : s.storages x = some (slot o)) :
    Leaves (destroy x s) (Function.update s.storages x none) := by
  rw [VariantLifetimes.destroy, index_eq hx]
  cases o with
  | none =>
    refine ⟨_, rfl, h.of_storages rfl (fun p hp => by cases hp) ?_, rfl⟩
    change Accounted (Function.update s.live x none) s.constructed s.destroyed
    rw [← show s.live x = none from live_eq hx, Function.update_eq_self]
    exact h.accounted
  | some a =>
    refine ⟨{ setStorage x s none with destroyed := s.destroyed ++ [a.number] }, ?_,
      h.remove hx (.inr rfl) rfl rfl rfl, rfl⟩
    rw [Option.map_some, if_pos (Option.some_ne_none _), query_eq hn hx]
    change (destructAlternative x s a.alternative >>= fun s => pure (setStorage x s none)) = _
    rw [destructAlternative_eq hx]
    change Except.ok (setStorage x _ none) = _
    simp only [setStorage, Function.update_idem]

theorem copyConstructor_eq {index : Option (Fin n)} (hx : s.storages x = some ⟨index, none⟩)
    (hy : s.storages y = some (slot (some b))) :
    copyConstructor x y s = .ok (b.alternative,
      { setStorage x s (some ⟨index, some ⟨b.alternative, s.constructed, b.content⟩⟩) with
        constructed := s.constructed + 1 }) := by
  simp only [copyConstructor, query_eq hn hy, read_eq hy rfl, construct_eq hx, bind, Except.bind, pure,
    Except.pure]

/-- A value moves to a variant in which nothing is alive, and leaves its husk. -/
theorem moveConstructor_eq (husk : V → V) {index : Option (Fin n)} (hne : x ≠ y)
    (hx : s.storages x = some ⟨index, none⟩) (hy : s.storages y = some (slot (some b))) :
    moveConstructor x y s husk = .ok (b.alternative,
      { setStorage x (setStorage y s (some (slot (some { b with content := husk b.content }))))
          (some ⟨index, some ⟨b.alternative, s.constructed, b.content⟩⟩) with
        constructed := s.constructed + 1 }) := by
  have hx' : (setStorage y s (some (slot (some { b with content := husk b.content })))).storages x =
      some ⟨index, none⟩ := (Function.update_of_ne hne ..).trans hx
  simp only [moveConstructor, query_eq hn hy, read_eq hy rfl, write_eq hy rfl, construct_eq hx',
    bind, Except.bind, pure, Except.pure]
  rfl

theorem Consistent.clear (h : Consistent s) {o : Option (Alive n V)}
    (hx : s.storages x = some (slot o)) :
    Leaves (clear x s) (Function.update s.storages x (some (slot none))) := by
  rw [VariantLifetimes.clear, index_eq hx]
  cases o with
  | none => exact ⟨s, rfl, h, by rw [← hx, Function.update_eq_self]⟩
  | some a => exact h.destruct hn hx

theorem Consistent.copyConstruct (h : Consistent s) (hx : s.storages x = some (slot none))
    (hy : s.storages y = some (slot (some b))) :
    Leaves (copyConstruct x y s) (Function.update s.storages x
      (some (slot (some ⟨b.alternative, s.constructed, b.content⟩)))) := by
  refine ⟨{ setStorage x s (some (slot (some ⟨b.alternative, s.constructed, b.content⟩))) with
    constructed := s.constructed + 1 }, ?_, h.construct (live_eq hx) rfl rfl rfl, rfl⟩
  simp only [VariantLifetimes.copyConstruct, copyConstructor_eq hn hx hy, bind, Except.bind, pure,
    Except.pure, setIndex, setStorage, Function.update_self, Option.map_some, Function.update_idem]
  rfl

theorem Consistent.moveConstruct (h : Consistent s) (husk : V → V)
    (hx : s.storages x = some (slot none)) (hy : s.storages y = some (slot (some b))) :
    Leaves (moveConstruct x y s husk) (Function.update
      (Function.update s.storages y (some (slot (some { b with content := husk b.content })))) x
      (some (slot (some ⟨b.alternative, s.constructed, b.content⟩)))) := by
  have hne : x ≠ y := by
    rintro rfl
    rw [hx] at hy
    cases congrArg Storage.alive (Option.some.inj hy)
  have hx' : (setStorage y s (some (slot (some { b with content := husk b.content })))).storages x =
      some (slot none) := (Function.update_of_ne hne ..).trans hx
  refine ⟨{ setStorage x (setStorage y s (some (slot (some { b with content := husk b.content }))))
      (some (slot (some ⟨b.alternative, s.constructed, b.content⟩))) with
    constructed := s.constructed + 1 }, ?_, (h.write hy _).construct (live_eq hx') rfl rfl rfl, rfl⟩
  simp only [VariantLifetimes.moveConstruct, moveConstructor_eq hn husk hne hx hy, bind, Except.bind,
    pure, Except.pure, setIndex, setStorage, Function.update_self, Option.map_some,
    Function.update_idem]
  rfl

/-! ## Operations on variants -/

/-- A new variant is a copy of another one. -/
theorem Consistent.copyFrom (h : Consistent s) {o : Option (Alive n V)} (hx : s.storages x = none)
    (hy : s.storages y = some (slot o)) :
    Leaves (copyFrom x y s) (Function.update s.storages x
      (some (slot (o.map fun b => ⟨b.alternative, s.constructed, b.content⟩)))) := by
  have hne : y ≠ x := by
    rintro rfl
    rw [hx] at hy
    cases hy
  have hlive := live_eq_none hx
  rw [VariantLifetimes.copyFrom, index_eq hy]
  cases o with
  | none =>
    refine ⟨_, rfl, h.of_storages rfl (fun p hp => ?_) ?_, rfl⟩
    · rw [← Option.some.inj hp]
      rfl
    · change Accounted (Function.update s.live x none) s.constructed s.destroyed
      rw [← hlive, Function.update_eq_self]
      exact h.accounted
  | some b =>
    have hy' : (setStorage x s (some ⟨some b.alternative, none⟩)).storages y =
        some (slot (some b)) := (Function.update_of_ne hne ..).trans hy
    refine ⟨{ setStorage x s (some (slot (some ⟨b.alternative, s.constructed, b.content⟩))) with
      constructed := s.constructed + 1 }, ?_, h.construct hlive rfl rfl rfl, rfl⟩
    rw [Option.map_some, if_pos (Option.some_ne_none _),
      copyConstructor_eq hn (Function.update_self ..) hy']
    simp only [Except.map, setStorage, Function.update_idem]
    rfl

theorem Consistent.moveFrom (h : Consistent s) (husk : V → V) {o : Option (Alive n V)}
    (hx : s.storages x = none) (hy : s.storages y = some (slot o)) :
    Leaves (moveFrom x y s husk) (Function.update (Function.update s.storages y
      (some (slot (o.map fun b => { b with content := husk b.content })))) x
      (some (slot (o.map fun b => ⟨b.alternative, s.constructed, b.content⟩)))) := by
  have hne : x ≠ y := by
    rintro rfl
    rw [hx] at hy
    cases hy
  have hlive := live_eq_none hx
  rw [VariantLifetimes.moveFrom, index_eq hy]
  cases o with
  | none =>
    refine ⟨setStorage x s (some (slot none)), rfl, h.of_storages rfl (fun p hp => ?_) ?_, ?_⟩
    · rw [← Option.some.inj hp]
      rfl
    · change Accounted (Function.update s.live x none) s.constructed s.destroyed
      rw [← hlive, Function.update_eq_self]
      exact h.accounted
    · have hsame : Function.update s.storages y (some (slot none)) = s.storages := by
        rw [← hy, Function.update_eq_self]
      rw [Option.map_none, Option.map_none, hsame]
      rfl
  | some b =>
    have hy' : (setStorage x s (some ⟨some b.alternative, none⟩)).storages y =
        some (slot (some b)) := (Function.update_of_ne hne.symm ..).trans hy
    have hlive' : (setStorage y s
        (some (slot (some { b with content := husk b.content })))).live x = none :=
      live_eq_none ((Function.update_of_ne hne ..).trans hx)
    refine ⟨{ setStorage x (setStorage y s (some (slot (some { b with content := husk b.content }))))
        (some (slot (some ⟨b.alternative, s.constructed, b.content⟩))) with
      constructed := s.constructed + 1 }, ?_, (h.write hy _).construct hlive' rfl rfl rfl, rfl⟩
    rw [Option.map_some, if_pos (Option.some_ne_none _),
      moveConstructor_eq hn husk hne (Function.update_self ..) hy']
    simp only [Except.map, setStorage, Function.update_comm hne, Function.update_idem]
    rfl

omit hn in
/-- A variant behind a write to another one, or to itself. -/
theorem storages_write {i : Fin n} (hx : s.storages x = some (slot (some a)))
    (hy : s.storages y = some (slot (some b))) (ha : a.alternative = i) (hb : b.alternative = i)
    (v : V) :
    ∃ a', (setStorage y s (some (slot (some { b with content := v })))).storages x =
      some (slot (some a')) ∧ a'.alternative = i ∧ (x = y → a'.content = v) ∧ (x ≠ y → a' = a) := by
  by_cases hxy : x = y
  · subst hxy
    exact ⟨{ b with content := v }, Function.update_self .., hb, fun _ => rfl, fun hne => absurd rfl hne⟩
  · exact ⟨a, (Function.update_of_ne hxy ..).trans hx, ha, fun heq => absurd heq hxy, fun _ => rfl⟩

theorem Consistent.copyAssignVisit (h : Consistent s) (hx : s.storages x = some (slot (some a)))
    (hy : s.storages y = some (slot (some b))) (heq : a.alternative = b.alternative) :
    Leaves (copyAssignVisit x y s)
      (Function.update s.storages x (some (slot (some { a with content := b.content })))) := by
  refine ⟨_, ?_, h.write hx b.content, rfl⟩
  simp only [VariantLifetimes.copyAssignVisit, query_eq hn hy, read_eq hy rfl, write_eq hx heq, bind,
    Except.bind]

/-- What the operation leaves behind, with the temporary variant gone. -/
def Settles (op : Except Misuse (State n V Name)) : Prop := ∃ t, op = .ok t ∧ Owned t

omit hn [DecidableEq Name] in
theorem Leaves.settles {op : Except Misuse (State n V Name)}
    {storages : Option Name → Option (Storage n V)} (h : Leaves op storages)
    (hsettled : storages none = none) : Settles op := by
  obtain ⟨t, ht, hconsistent, rfl⟩ := h
  exact ⟨t, ht, hconsistent.owned hsettled⟩

theorem Consistent.moveAssignVisit (h : Consistent s) (husk : V → V)
    (hx : s.storages x = some (slot (some a))) (hy : s.storages y = some (slot (some b)))
    (heq : a.alternative = b.alternative) (hsettled : s.storages none = none) :
    Settles (moveAssignVisit x y s husk) := by
  have hne {z : Option Name} {c : Alive n V} {u : State n V Name}
      (hz : u.storages z = some (slot (some c))) (hu : u.storages none = none) : none ≠ z := by
    rintro rfl
    rw [hu] at hz
    cases hz
  obtain ⟨a', hx', ha', -⟩ := storages_write hx hy heq rfl (husk b.content)
  have hsettled' : (setStorage y s
      (some (slot (some { b with content := husk b.content })))).storages none = none :=
    (Function.update_of_ne (hne hy hsettled) ..).trans hsettled
  refine ⟨_, ?_, ((h.write hy _).write hx' b.content).owned
    ((Function.update_of_ne (hne hx' hsettled') ..).trans hsettled')⟩
  simp only [VariantLifetimes.moveAssignVisit, query_eq hn hy, read_eq hy rfl, write_eq hy rfl,
    write_eq hx' ha', bind, Except.bind]

omit hn [DecidableEq Name] in
/-- A temporary value comes and goes. -/
theorem Consistent.temporary (h : Consistent s) : Consistent
    { s with constructed := s.constructed + 1, destroyed := s.destroyed ++ [s.constructed] } :=
  ⟨h.named, h.accounted.temporary⟩

/-- Two variants of one alternative exchange their values, and a variant keeps its own. -/
theorem Consistent.swapVisit (h : Consistent s) (husk : V → V)
    (hx : s.storages x = some (slot (some a))) (hy : s.storages y = some (slot (some b)))
    (heq : a.alternative = b.alternative) :
    Leaves (swapVisit x y s husk) (Function.update
      (Function.update s.storages x (some (slot (some { a with content := b.content })))) y
      (some (slot (some { b with content := a.content })))) := by
  by_cases hxy : x = y
  · subst hxy
    obtain rfl : a = b := by
      rw [hx] at hy
      exact Option.some.inj (congrArg Storage.alive (Option.some.inj hy))
    have hself (v : V) (u : State n V Name) :
        (setStorage x u (some (slot (some { a with content := v })))).storages x =
          some (slot (some { a with content := v })) := Function.update_self ..
    refine ⟨_, ?_, ((((h.write hx (husk a.content)).write (hself _ _) (husk (husk a.content))).write
      (hself _ _) (husk a.content)).write (hself _ _) a.content).temporary, ?_⟩
    · simp only [VariantLifetimes.swapVisit, query_eq hn hx, read_eq hx rfl, write_eq hx rfl,
        read_eq (hself _ _) rfl, write_eq (hself _ _) rfl, bind, Except.bind, pure, Except.pure]
    · simp only [setStorage, Function.update_idem]
  · have hx₁ : (setStorage x s (some (slot (some { a with content := husk a.content })))).storages x =
        some (slot (some { a with content := husk a.content })) := Function.update_self ..
    have hy₁ : (setStorage x s (some (slot (some { a with content := husk a.content })))).storages y =
        some (slot (some b)) := (Function.update_of_ne (Ne.symm hxy) ..).trans hy
    have hx₂ (v : V) : (setStorage y
        (setStorage x s (some (slot (some { a with content := husk a.content }))))
        (some (slot (some { b with content := v })))).storages x =
        some (slot (some { a with content := husk a.content })) :=
      (Function.update_of_ne hxy ..).trans hx₁
    have hy₂ (v w : V) : (setStorage x (setStorage y
        (setStorage x s (some (slot (some { a with content := husk a.content }))))
        (some (slot (some { b with content := v }))))
        (some (slot (some { a with content := w })))).storages y =
        some (slot (some { b with content := v })) :=
      (Function.update_of_ne (Ne.symm hxy) ..).trans (Function.update_self ..)
    refine ⟨_, ?_, ((((h.write hx (husk a.content)).write hy₁ (husk b.content)).write (hx₂ _)
      b.content).write (hy₂ _ _) a.content).temporary, ?_⟩
    · simp only [VariantLifetimes.swapVisit, query_eq hn hy, read_eq hx heq, write_eq hx heq,
        read_eq hy₁ rfl, write_eq hy₁ rfl, write_eq (hx₂ _) heq, write_eq (hy₂ _ _) rfl, bind,
        Except.bind, pure, Except.pure]
    · funext z
      by_cases hzy : z = y
      · simp only [hzy, setStorage, Function.update_self]
      · by_cases hzx : z = x
        · simp only [hzx, setStorage, Function.update_of_ne hxy, Function.update_self]
        · simp only [setStorage, Function.update_of_ne hzy, Function.update_of_ne hzx]

/-! ## Assignments and exchanges -/

section Actions

variable {z w : Name} {o p : Option (Alive n V)}

omit hn in
theorem none_of_update {f : Option Name → Option (Storage n V)} (q : Option (Storage n V))
    (hf : f none = none) : Function.update f (some z) q none = none :=
  (Function.update_of_ne (Option.some_ne_none z).symm ..).trans hf

theorem Owned.copyAssign (h : Owned s) (husk : V → V) (hx : s.storages (some z) = some (slot o))
    (hy : s.storages (some w) = some (slot p)) :
    Settles (copyAssign (some z) (some w) s husk) := by
  rw [VariantLifetimes.copyAssign, index_eq hx, index_eq hy]
  cases p with
  | none =>
    cases o with
    | none => exact ⟨s, rfl, h⟩
    | some a => exact (h.consistent.destruct hn hx).settles (none_of_update _ h.settled)
  | some b =>
    rw [Option.map_some, if_pos (Option.some_ne_none _)]
    cases o with
    | none =>
      rw [Option.map_none, if_neg (Option.some_ne_none _).symm, if_neg (not_not.mpr rfl)]
      exact (h.consistent.copyConstruct hn hx hy).settles (none_of_update _ h.settled)
    | some a =>
      rw [Option.map_some]
      by_cases heq : a.alternative = b.alternative
      · rw [if_pos (congrArg some heq)]
        exact (h.consistent.copyAssignVisit hn hx hy heq).settles (none_of_update _ h.settled)
      · rw [if_neg fun hsome => heq (Option.some.inj hsome), if_pos (Option.some_ne_none _)]
        -- a copy is made first, and moved into place
        have hne : (some z : Option Name) ≠ none := Option.some_ne_none z
        obtain ⟨s₁, h₁, hs₁, e₁⟩ := h.consistent.copyFrom hn h.settled hy
        have hx₁ : s₁.storages (some z) = some (slot (some a)) := by
          rw [e₁, Function.update_of_ne hne, hx]
        obtain ⟨s₂, h₂, hs₂, e₂⟩ := hs₁.destruct hn hx₁
        have hx₂ : s₂.storages (some z) = some (slot none) := by rw [e₂, Function.update_self]
        have ht₂ : s₂.storages none =
            some (slot (some ⟨b.alternative, s.constructed, b.content⟩)) := by
          rw [e₂, Function.update_of_ne hne.symm, e₁, Function.update_self]
          rfl
        obtain ⟨s₃, h₃, hs₃, e₃⟩ := hs₂.moveConstruct hn husk hx₂ ht₂
        obtain ⟨s₄, h₄, hs₄, e₄⟩ := hs₃.destroy hn (x := none) (o := some _) (by
          rw [e₃, Function.update_of_ne hne.symm, Function.update_self])
        refine ⟨s₄, ?_, hs₄.owned (by rw [e₄, Function.update_self])⟩
        simp only [h₁, h₂, h₃, h₄, bind, Except.bind]

theorem Owned.moveAssign (h : Owned s) (husk : V → V) (hx : s.storages (some z) = some (slot o))
    (hy : s.storages (some w) = some (slot p)) :
    Settles (moveAssign (some z) (some w) s husk) := by
  rw [VariantLifetimes.moveAssign, index_eq hx, index_eq hy]
  by_cases hindex : o.map Alive.alternative = p.map Alive.alternative
  · rw [if_pos hindex]
    cases o with
    | none => exact ⟨s, rfl, h⟩
    | some a =>
      cases p with
      | none => cases hindex
      | some b =>
        rw [Option.map_some, if_pos (Option.some_ne_none _)]
        exact h.consistent.moveAssignVisit hn husk hx hy (Option.some.inj hindex) h.settled
  · rw [if_neg hindex]
    have hne : (some w : Option Name) ≠ some z := by
      rintro heq
      rw [heq, hx] at hy
      exact hindex (congrArg Storage.index (Option.some.inj hy))
    -- the variant is without a value then
    obtain ⟨s₁, h₁, hs₁, e₁⟩ := h.consistent.clear hn hx
    have hx₁ : s₁.storages (some z) = some (slot none) := by rw [e₁, Function.update_self]
    have hy₁ : s₁.storages (some w) = some (slot p) := by rw [e₁, Function.update_of_ne hne, hy]
    have hsettled : s₁.storages none = none := by
      rw [e₁]
      exact none_of_update _ h.settled
    rw [h₁]
    change Settles (if s₁.index (some w) ≠ none then _ else _)
    rw [index_eq hy₁]
    cases p with
    | none => exact ⟨s₁, rfl, hs₁.owned hsettled⟩
    | some b =>
      rw [Option.map_some, if_pos (Option.some_ne_none _)]
      exact (hs₁.moveConstruct hn husk hx₁ hy₁).settles
        (none_of_update _ (none_of_update _ hsettled))

/-- What was alive before is destructed, and another alternative constructed. -/
theorem Owned.emplace (h : Owned s) (hx : s.storages (some z) = some (slot o)) (i : Fin n) (v : V) :
    Settles (emplace (some z) s i v) := by
  rw [VariantLifetimes.emplace]
  obtain ⟨s₁, h₁, hs₁, e₁⟩ := h.consistent.clear hn hx
  have hx₁ : s₁.storages (some z) = some (slot none) := by rw [e₁, Function.update_self]
  have hsettled : s₁.storages none = none := by
    rw [e₁]
    exact none_of_update _ h.settled
  have hplaced : Leaves (VariantLifetimes.construct (some z) s₁ i v >>= fun s =>
      pure (setIndex (some z) s (some i)))
      (Function.update s₁.storages (some z) (some (slot (some ⟨i, s₁.constructed, v⟩)))) := by
    refine ⟨{ setStorage (some z) s₁ (some (slot (some ⟨i, s₁.constructed, v⟩))) with
      constructed := s₁.constructed + 1 }, ?_, hs₁.construct (live_eq hx₁) rfl rfl rfl, rfl⟩
    rw [construct_eq hx₁]
    simp only [bind, Except.bind, pure, Except.pure, setIndex, setStorage, Function.update_self,
      Option.map_some, Function.update_idem]
    rfl
  rw [h₁]
  exact hplaced.settles (none_of_update _ hsettled)

theorem Owned.assign (h : Owned s) (hx : s.storages (some z) = some (slot o)) (i : Fin n) (v : V) :
    Settles (assign (some z) s i v) := by
  rw [VariantLifetimes.assign, index_eq hx]
  split_ifs with hi
  · obtain ⟨a, rfl, ha⟩ := Option.map_eq_some_iff.mp hi
    have hwritten : Leaves (write (some z) s i v) (Function.update s.storages (some z)
        (some (slot (some { a with content := v })))) :=
      ⟨_, write_eq hx ha v, h.consistent.write hx v, rfl⟩
    exact hwritten.settles (none_of_update _ h.settled)
  · exact h.emplace hn hx i v

omit hn [DecidableEq Name] in
theorem value_eq (hx : s.storages (some z) = some (slot o)) :
    s.value z = o.map fun a => (a.alternative, a.content) := by
  rw [State.value, alive_eq hx]

/-- A value goes to a variant without one, and leaves the other one without. -/
theorem Owned.give (h : Owned s) (husk : V → V) (hx : s.storages (some z) = some (slot none))
    (hy : s.storages (some w) = some (slot (some b))) :
    ∃ t, (moveConstruct (some z) (some w) s husk >>= fun s => destruct (some w) s) = .ok t ∧
      Owned t ∧ t.value z = s.value w ∧ t.value w = s.value z := by
  have hne : (some z : Option Name) ≠ some w := by
    intro heq
    rw [heq, hy] at hx
    cases congrArg Storage.alive (Option.some.inj hx)
  obtain ⟨s₁, h₁, hs₁, e₁⟩ := h.consistent.moveConstruct hn husk hx hy
  have hy₁ : s₁.storages (some w) = some (slot (some { b with content := husk b.content })) := by
    rw [e₁, Function.update_of_ne hne.symm, Function.update_self]
  obtain ⟨s₂, h₂, hs₂, e₂⟩ := hs₁.destruct hn hy₁
  refine ⟨s₂, by rw [h₁]; exact h₂, hs₂.owned ?_, ?_, ?_⟩
  · rw [e₂, e₁]
    exact none_of_update _ (none_of_update _ (none_of_update _ h.settled))
  · rw [value_eq hy]
    exact value_eq (o := some ⟨b.alternative, s.constructed, b.content⟩)
      (by rw [e₂, Function.update_of_ne hne, e₁, Function.update_self])
  · rw [value_eq hx]
    exact value_eq (by rw [e₂, Function.update_self])

/-- Values of two alternatives are exchanged by way of a temporary variant. -/
theorem Owned.exchange (h : Owned s) (husk : V → V) (hx : s.storages (some z) = some (slot (some a)))
    (hy : s.storages (some w) = some (slot (some b))) (hne : (some z : Option Name) ≠ some w) :
    ∃ t, (do
      let s ← moveFrom none (some z) s husk
      let s ← destruct (some z) s
      let s ← moveConstruct (some z) (some w) s husk
      let s ← destruct (some w) s
      let s ← moveConstruct (some w) none s husk
      destroy none s) = .ok t ∧ Owned t ∧ t.value z = s.value w ∧ t.value w = s.value z := by
  have hz : (some z : Option Name) ≠ none := Option.some_ne_none z
  have hw : (some w : Option Name) ≠ none := Option.some_ne_none w
  obtain ⟨s₁, h₁, hs₁, e₁⟩ := h.consistent.moveFrom hn husk h.settled hx
  have hx₁ : s₁.storages (some z) = some (slot (some { a with content := husk a.content })) := by
    rw [e₁, Function.update_of_ne hz, Function.update_self]
    rfl
  obtain ⟨s₂, h₂, hs₂, e₂⟩ := hs₁.destruct hn hx₁
  have hx₂ : s₂.storages (some z) = some (slot none) := by rw [e₂, Function.update_self]
  have hy₂ : s₂.storages (some w) = some (slot (some b)) := by
    rw [e₂, Function.update_of_ne hne.symm, e₁, Function.update_of_ne hw,
      Function.update_of_ne hne.symm, hy]
  have ht₂ : s₂.storages none = some (slot (some ⟨a.alternative, s.constructed, a.content⟩)) := by
    rw [e₂, Function.update_of_ne hz.symm, e₁, Function.update_self]
    rfl
  obtain ⟨s₃, h₃, hs₃, e₃⟩ := hs₂.moveConstruct hn husk hx₂ hy₂
  have hy₃ : s₃.storages (some w) = some (slot (some { b with content := husk b.content })) := by
    rw [e₃, Function.update_of_ne hne.symm, Function.update_self]
  obtain ⟨s₄, h₄, hs₄, e₄⟩ := hs₃.destruct hn hy₃
  have hy₄ : s₄.storages (some w) = some (slot none) := by rw [e₄, Function.update_self]
  have ht₄ : s₄.storages none = some (slot (some ⟨a.alternative, s.constructed, a.content⟩)) := by
    rw [e₄, Function.update_of_ne hw.symm, e₃, Function.update_of_ne hz.symm,
      Function.update_of_ne hw.symm, ht₂]
  obtain ⟨s₅, h₅, hs₅, e₅⟩ := hs₄.moveConstruct hn husk hy₄ ht₄
  obtain ⟨s₆, h₆, hs₆, e₆⟩ := hs₅.destroy hn (x := none) (o := some _) (by
    rw [e₅, Function.update_of_ne hw.symm, Function.update_self])
  refine ⟨s₆, ?_, hs₆.owned (by rw [e₆, Function.update_self]), ?_, ?_⟩
  · simp only [h₁, h₂, h₃, h₄, h₅, h₆, bind, Except.bind]
  · rw [value_eq hy]
    refine value_eq (o := some ⟨b.alternative, s₂.constructed, b.content⟩) ?_
    rw [e₆, Function.update_of_ne hz, e₅, Function.update_of_ne hne, Function.update_of_ne hz, e₄,
      Function.update_of_ne hne, e₃, Function.update_self]
  · rw [value_eq hx]
    refine value_eq (o := some ⟨a.alternative, s₄.constructed, a.content⟩) ?_
    rw [e₆, Function.update_of_ne hw, e₅, Function.update_self]

/-- Whatever the two variants hold, each gets what the other one had. -/
theorem Owned.swap (h : Owned s) (husk : V → V) (hx : s.storages (some z) = some (slot o))
    (hy : s.storages (some w) = some (slot p)) :
    ∃ t, swap (some z) (some w) s husk = .ok t ∧ Owned t ∧ t.value z = s.value w ∧
      t.value w = s.value z := by
  rw [VariantLifetimes.swap, index_eq hx, index_eq hy]
  cases p with
  | none =>
    cases o with
    | none => exact ⟨s, rfl, h, (value_eq hx).trans (value_eq hy).symm,
        (value_eq hy).trans (value_eq hx).symm⟩
    | some a =>
      rw [Option.map_none, if_neg (not_not.mpr rfl), Option.map_some,
        if_pos (Option.some_ne_none _)]
      obtain ⟨t, ht, howned, hw, hz⟩ := h.give hn husk hy hx
      exact ⟨t, ht, howned, hz, hw⟩
  | some b =>
    rw [Option.map_some, if_pos (Option.some_ne_none _)]
    cases o with
    | none =>
      rw [Option.map_none, if_neg (Option.some_ne_none _).symm, if_neg (not_not.mpr rfl)]
      exact h.give hn husk hx hy
    | some a =>
      rw [Option.map_some]
      by_cases heq : a.alternative = b.alternative
      · rw [if_pos (congrArg some heq)]
        obtain ⟨t, ht, hconsistent, e⟩ := h.consistent.swapVisit hn husk hx hy heq
        refine ⟨t, ht, hconsistent.owned (by
          rw [e]; exact none_of_update _ (none_of_update _ h.settled)), ?_, ?_⟩
        · rw [value_eq hy]
          by_cases hname : (some z : Option Name) = some w
          · rw [hname, hy] at hx
            obtain rfl := Option.some.inj (congrArg Storage.alive (Option.some.inj hx))
            exact value_eq (o := some _) (by rw [e, hname, Function.update_self])
          · refine (value_eq (o := some { a with content := b.content }) ?_).trans ?_
            · rw [e, Function.update_of_ne hname, Function.update_self]
            · rw [Option.map_some, Option.map_some, heq]
        · rw [value_eq hx]
          refine (value_eq (o := some { b with content := a.content }) ?_).trans ?_
          · rw [e, Function.update_self]
          · rw [Option.map_some, Option.map_some, heq]
      · rw [if_neg fun hsome => heq (Option.some.inj hsome), if_pos (Option.some_ne_none _)]
        refine h.exchange hn husk hx hy fun hname => ?_
        rw [hname, hy] at hx
        exact heq (congrArg Alive.alternative
          (Option.some.inj (congrArg Storage.alive (Option.some.inj hx)))).symm

end Actions

/-! ## Runs -/

omit hn [DecidableEq Name] in
theorem owned_initial : Owned (State.initial : State n V Name) where
  named := fun _ => rfl
  accounted := by
    refine ⟨List.nodup_nil, fun x v hv => ?_, fun x y v hv => ?_, fun v hv => ?_, fun v hv => ?_⟩
    · cases hv
    · cases hv
    · cases hv
    · exact absurd hv (Nat.not_lt_zero v)
  settled := rfl
  atEnd := fun _ => List.Perm.refl _

omit hn [DecidableEq Name] in
/-- The storage of a variant that exists. -/
theorem Owned.storage {o : Storage n V} (h : Owned s) (hx : s.storages x = some o) :
    s.storages x = some (slot o.alive) := by
  rw [hx, ← h.consistent.named x o hx]

omit hn in
/-- A new variant with a value. -/
theorem Owned.createWith {z : Name} (h : Owned s) (hx : s.storages (some z) = none) (i : Fin n)
    (v : V) : Settles (construct (some z) (setStorage (some z) s (some ⟨some i, none⟩)) i v) := by
  have hplaced : Leaves (construct (some z) (setStorage (some z) s (some ⟨some i, none⟩)) i v)
      (Function.update s.storages (some z) (some (slot (some ⟨i, s.constructed, v⟩)))) := by
    refine ⟨{ setStorage (some z) s (some (slot (some ⟨i, s.constructed, v⟩))) with
      constructed := s.constructed + 1 }, ?_,
      h.consistent.construct (live_eq_none hx) rfl rfl rfl, rfl⟩
    rw [construct_eq (Function.update_self ..)]
    simp only [setStorage, Function.update_idem]
    rfl
  exact hplaced.settles (none_of_update _ h.settled)

omit hn [DecidableEq Name] in
theorem Settles.sound {action : Action n V Name} {op : Except Misuse (State n V Name)}
    (h : Settles op) (hswap : ∀ x y, action ≠ .swap x y) :
    ∃ t, op = .ok t ∧ Sound s action t :=
  h.imp fun _ ht => ⟨ht.1, ht.2, fun x y heq => absurd heq (hswap x y)⟩

omit hn [DecidableEq Name] in
theorem Owned.unchanged (h : Owned s) {action : Action n V Name}
    (hswap : ∀ x y, action = .swap x y → s.storages (some x) = none ∨ s.storages (some y) = none) :
    Sound s action s :=
  ⟨h, fun x y heq hx hy => ((hswap x y heq).elim hx hy).elim⟩

/-- What an action makes of variants that own their values. -/
theorem Owned.step (h : Owned s) (husk : V → V) (action : Action n V Name) :
    ∃ t, step husk s action = .ok t ∧ Sound s action t := by
  have hnone {action : Action n V Name} (hswap : ∀ x y, action ≠ .swap x y) : Sound s action s :=
    h.unchanged fun x y heq => absurd heq (hswap x y)
  cases action with
  | createWith z i v =>
    rw [VariantLifetimes.step]
    split
    next hx => exact (h.createWith hx i v).sound fun x y => by simp
    next => exact ⟨s, rfl, hnone fun x y => by simp⟩
  | copyFrom z w =>
    rw [VariantLifetimes.step]
    split
    next o hx hy =>
      exact ((h.consistent.copyFrom hn hx (h.storage hy)).settles
        (none_of_update _ h.settled)).sound fun x y => by simp
    next => exact ⟨s, rfl, hnone fun x y => by simp⟩
  | moveFrom z w =>
    rw [VariantLifetimes.step]
    split
    next o hx hy =>
      exact ((h.consistent.moveFrom hn husk hx (h.storage hy)).settles
        (none_of_update _ (none_of_update _ h.settled))).sound fun x y => by simp
    next => exact ⟨s, rfl, hnone fun x y => by simp⟩
  | copyAssign z w =>
    rw [VariantLifetimes.step]
    split
    next o p hx hy =>
      exact (h.copyAssign hn husk (h.storage hx) (h.storage hy)).sound fun x y => by simp
    next => exact ⟨s, rfl, hnone fun x y => by simp⟩
  | moveAssign z w =>
    rw [VariantLifetimes.step]
    split
    next o p hx hy =>
      exact (h.moveAssign hn husk (h.storage hx) (h.storage hy)).sound fun x y => by simp
    next => exact ⟨s, rfl, hnone fun x y => by simp⟩
  | assign z i v =>
    rw [VariantLifetimes.step]
    split
    next o hx => exact (h.assign hn (h.storage hx) i v).sound fun x y => by simp
    next => exact ⟨s, rfl, hnone fun x y => by simp⟩
  | emplace z i v =>
    rw [VariantLifetimes.step]
    split
    next o hx => exact (h.emplace hn (h.storage hx) i v).sound fun x y => by simp
    next => exact ⟨s, rfl, hnone fun x y => by simp⟩
  | swap z w =>
    rw [VariantLifetimes.step]
    split
    next o p hx hy =>
      obtain ⟨t, ht, howned, hz, hw⟩ := h.swap hn husk (h.storage hx) (h.storage hy)
      refine ⟨t, ht, howned, fun x y heq _ _ => ?_⟩
      obtain ⟨rfl, rfl⟩ := Action.swap.inj heq
      exact ⟨hz, hw⟩
    next hexist =>
      refine ⟨s, rfl, h.unchanged fun x y heq => ?_⟩
      obtain ⟨rfl, rfl⟩ := Action.swap.inj heq
      by_contra hboth
      rw [not_or] at hboth
      obtain ⟨o, ho⟩ := Option.ne_none_iff_exists'.mp hboth.1
      obtain ⟨p, hp⟩ := Option.ne_none_iff_exists'.mp hboth.2
      exact hexist o p ho hp
  | destroy z =>
    rw [VariantLifetimes.step]
    split
    next o hx =>
      exact ((h.consistent.destroy hn (h.storage hx)).settles
        (none_of_update _ h.settled)).sound fun x y => by simp
    next => exact ⟨s, rfl, hnone fun x y => by simp⟩

/-- In every run of variants of at most 128 alternatives, each call goes through, the alternative
that is alive is named, every value is owned or has been destroyed once, and variants that are
swapped exchange what they hold. -/
theorem variants_sound (husk : V → V) (actions : List (Action n V Name)) :
    RelatesAll (step husk) Sound (State.initial : State n V Name) actions := by
  have hmeets : MeetsAll (step husk) (fun _ _ => True) (State.initial : State n V Name) actions :=
    meetsAll_of_forall (fun _ _ => trivial) _ _
  refine relatesAll_of_meetsAll Owned owned_initial (fun h _ => ?_) actions hmeets
  obtain ⟨t, ht, hsound⟩ := Owned.step hn h husk _
  exact ⟨t, ht, hsound, hsound.owned⟩

omit hn in
theorem variants_sound_two :
    RelatesAll (step id) Sound (State.initial : State 2 ℕ ℕ)
      [.createWith 0 0 5, .createWith 1 1 7, .swap 0 1, .copyAssign 0 1, .emplace 1 1 9,
        .moveAssign 1 0, .swap 1 1, .destroy 0, .destroy 1] :=
  variants_sound (by decide) id _

omit hn in
/-- There is no case for the last one of 129 alternatives. -/
theorem last_unreachable :
    runAll (step id) (State.initial : State 129 ℕ ℕ) [.createWith 0 (Fin.last 128) 5, .destroy 0] =
      .error .unreachable ∧
    ¬ RelatesAll (step id) Sound (State.initial : State 129 ℕ ℕ)
      [.createWith 0 (Fin.last 128) 5, .destroy 0] := by
  refine ⟨rfl, ?_⟩
  rintro ⟨s, hs, -, t, ht, -⟩
  cases hs
  cases ht

end Fimbulwinter.VariantLifetimes
