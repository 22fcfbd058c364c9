import Fimbulwinter.OptionalLifetimes
import Mathlib.Data.Set.Insert

/-! # Ownership of the values of `utility::any`

Types are numbered, and values in the order of their construction. Values of types that fit are kept
in place, and moved by constructing another one; others are kept on the heap, where only their
address moves. -/
namespace Fimbulwinter.AnyOwnership
open OptionalLifetimes (Accounted)

inductive Misuse
  /-- A value is constructed, or an address written, over a value that is alive. -/
  | over
  /-- A value is used or destructed where it is not alive, or as one of another type. -/
  | raw
  /-- A handler is called through a null pointer. -/
  | null
  deriving DecidableEq, Repr

/-- A value of a type. -/
structure Object (V : Type) where
  type : ℕ
  number : ℕ
  content : V

/-- The union of `any_data`. -/
inductive Content (V : Type)
  | raw
  /-- `ptr_`, with what is at the address -/
  | pointer (o : Object V)
  /-- a value that is alive in `buffer_` -/
  | value (o : Object V)

/-- `any_data`; a handler is that of a type. -/
structure AnyData (V : Type) where
  handler : Option ℕ
  content : Content V

/-- The objects of a program, `none` among them for the temporary one of an operation, and what has
become of the values that have been constructed. -/
structure State (V Name : Type) where
  datas : Option Name → Option (AnyData V)
  /-- the number of values that have been constructed -/
  constructed : ℕ
  destroyed : List ℕ

variable {V Name : Type} [DecidableEq Name]

def State.initial : State V Name := ⟨fun _ => none, 0, []⟩

inductive Action (V Name : Type)
  | create (x : Name)
  /-- the constructors from a value of a type, which can throw -/
  | createWith (x : Name) (type : ℕ) (v : V) (throws : Bool)
  | moveFrom (x y : Name)
  | moveAssign (x y : Name)
  | assign (x : Name) (type : ℕ) (v : V) (throws : Bool)
  | emplace (x : Name) (type : ℕ) (v : V) (throws : Bool)
  | reset (x : Name)
  | swap (x y : Name)
  | destroy (x : Name)

/-! ## Handlers -/

section Handlers

variable (fits : ℕ → Bool) (x y : Option Name) (s : State V Name)

def State.handler : Option ℕ := (s.datas x).bind AnyData.handler

def State.content : Content V := ((s.datas x).map AnyData.content).getD .raw

def setData (data : Option (AnyData V)) : State V Name :=
  { s with datas := Function.update s.datas x data }

def setHandler (handler : Option ℕ) : State V Name :=
  setData x s ((s.datas x).map fun d => { d with handler := handler })

def setContent (content : Content V) : State V Name :=
  setData x s ((s.datas x).map fun d => { d with content := content })

/-- `any_action::destruct` -/
def handleDestruct (type : ℕ) : Except Misuse (State V Name) :=
  match fits type, s.content x with
  | true, .value o =>
    if o.type = type then
      .ok { setContent x s .raw with destroyed := s.destroyed ++ [o.number] }
    else .error .raw
  | false, .pointer o =>
    if o.type = type ∧ o.number ∉ s.destroyed then
      .ok { s with destroyed := s.destroyed ++ [o.number] }
    else .error .raw
  | _, _ => .error .raw

/-- `any_action::move`, from the first to the second -/
def handleMove (type : ℕ) : Except Misuse (State V Name) :=
  match s.content y with
  | .value _ => .error .over
  | _ =>
    match fits type, s.content x with
    | true, .value o =>
      if o.type = type then
        .ok { setContent x (setHandler y (setContent y s (.value { o with number := s.constructed }))
            (some type)) .raw with
          constructed := s.constructed + 1
          destroyed := s.destroyed ++ [o.number] }
      else .error .raw
    | false, .pointer o => .ok (setHandler y (setContent y s (.pointer o)) (some type))
    | _, _ => .error .raw

/-- A call of `handler_` for a move. -/
def callMove : Except Misuse (State V Name) :=
  match s.handler x with
  | some type => handleMove fits x y s type
  | none => .error .null

/-- `create`: the new value, unless its construction throws. -/
def create (type : ℕ) (v : V) : Except Misuse (State V Name) :=
  match s.content x with
  | .value _ => .error .over
  | _ =>
    let o : Object V := ⟨type, s.constructed, v⟩
    .ok { setData x s (some ⟨some type, if fits type then .value o else .pointer o⟩) with
      constructed := s.constructed + 1 }

/-- `destroy` -/
def destroy : Except Misuse (State V Name) :=
  match s.handler x with
  | some type => do
    let s ← handleDestruct fits x s type
    return setHandler x s none
  | none => .ok s

/-- The destructor. -/
def destructor : Except Misuse (State V Name) :=
  match s.handler x with
  | some type => do
    let s ← handleDestruct fits x s type
    return setData x s none
  | none => .ok (setData x s none)

/-- What is held moves out of an object, which is empty then. -/
def take : Except Misuse (State V Name) :=
  match s.handler y with
  | some _ => do
    let s ← callMove fits y x s
    return setHandler y s none
  | none => .ok s

/-- The move constructor. -/
def moveFrom : Except Misuse (State V Name) := take fits x y (setData x s (some ⟨none, .raw⟩))

/-- The move assignment. -/
def moveAssign : Except Misuse (State V Name) := do
  let s ← destroy fits x s
  take fits x y s

/-- `swap` -/
def swap : Except Misuse (State V Name) :=
  match s.handler x, s.handler y with
  | some _, some _ =>
    if x = y then .ok s
    else do
      let s ← callMove fits x none (setData none s (some ⟨none, .raw⟩))
      let s ← callMove fits y x s
      let s ← callMove fits none y s
      destructor fits none (setHandler none s none)
  | some _, none => do
    let s ← callMove fits x y s
    return setHandler x s none
  | none, some _ => do
    let s ← callMove fits y x s
    return setHandler y s none
  | none, none => .ok s

/-- The constructors from a value; an object whose construction throws does not come to be. -/
def createWith (type : ℕ) (v : V) (throws : Bool) : Except Misuse (State V Name) :=
  if throws then .ok s else create fits x (setData x s (some ⟨none, .raw⟩)) type v

/-- The assignment of a value, which is held by a temporary object first. -/
def assign (type : ℕ) (v : V) (throws : Bool) : Except Misuse (State V Name) :=
  if throws then .ok s
  else do
    let s ← createWith fits none s type v false
    let s ← moveAssign fits x none s
    destructor fits none s

/-- `emplace` -/
def emplace (type : ℕ) (v : V) (throws : Bool) : Except Misuse (State V Name) := do
  let s ← destroy fits x s
  if throws then .ok s else create fits x s type v

end Handlers

/-- A call for objects that exist, or for a name that is not in use yet; other calls are none. -/
def step (fits : ℕ → Bool) (s : State V Name) : Action V Name → Except Misuse (State V Name)
  | .create x => if s.datas x = none then .ok (setData x s (some ⟨none, .raw⟩)) else .ok s
  | .createWith x type v throws =>
    if s.datas x = none then createWith fits x s type v throws else .ok s
  | .moveFrom x y =>
    if s.datas x = none ∧ s.datas y ≠ none then moveFrom fits x y s else .ok s
  | .moveAssign x y =>
    if s.datas x ≠ none ∧ s.datas y ≠ none then moveAssign fits x y s else .ok s
  | .assign x type v throws => if s.datas x ≠ none then assign fits x s type v throws else .ok s
  | .emplace x type v throws => if s.datas x ≠ none then emplace fits x s type v throws else .ok s
  | .reset x => if s.datas x ≠ none then destroy fits x s else .ok s
  | .swap x y => if s.datas x ≠ none ∧ s.datas y ≠ none then swap fits x y s else .ok s
  | .destroy x => if s.datas x ≠ none then destructor fits x s else .ok s

/-! ## Ownership -/

section Ownership

variable (fits : ℕ → Bool)

/-- The value that is held, of exactly the type of the handler. -/
def AnyData.held (d : AnyData V) : Option (Object V) :=
  match d.handler, d.content with
  | some type, .value o => if fits type = true ∧ o.type = type then some o else none
  | some type, .pointer o => if fits type = false ∧ o.type = type then some o else none
  | _, _ => none

def State.held (s : State V Name) (x : Option Name) : Option (Object V) :=
  (s.datas x).bind (AnyData.held fits)

/-- What should hold of the objects of a program. -/
structure Owned (s : State V Name) : Prop where
  /-- There is a handler exactly if a value of its type is held. -/
  handled : ∀ x, s.handler x = (s.held fits x).map Object.type
  /-- No value is alive in place but those that are held. -/
  inPlace : ∀ x o, s.content x = .value o → s.held fits x = some o
  accounted : Accounted (fun x => (s.held fits x).map Object.number) s.constructed s.destroyed
  /-- No temporary object is left. -/
  settled : s.datas none = none
  /-- When there is no object any more, every value has been destroyed exactly once. -/
  atEnd : (∀ x, s.datas x = none) → s.destroyed.Perm (List.range s.constructed)

/-- A value, wherever it is kept. -/
def Object.value (o : Object V) : ℕ × V := (o.type, o.content)

/-- What an operation should make of the objects. -/
structure Sound (s : State V Name) (action : Action V Name) (t : State V Name) : Prop where
  owned : Owned fits t
  exchanged : ∀ x y, action = .swap x y → s.datas (some x) ≠ none → s.datas (some y) ≠ none →
    (t.held fits (some x)).map Object.value = (s.held fits (some y)).map Object.value ∧
    (t.held fits (some y)).map Object.value = (s.held fits (some x)).map Object.value

/-- Where a value is kept. -/
def place (o : Object V) : Content V := if fits o.type then .value o else .pointer o

def full (o : Object V) : AnyData V := ⟨some o.type, place fits o⟩

/-- What objects hold in an operation, in which handlers can be stale. -/
structure Holds (s : State V Name) (held : Option Name → Option (Object V))
    (stale : Set (Option Name)) : Prop where
  full : ∀ x o, held x = some o → s.datas x = some (full fits o)
  vacant : ∀ x d, s.datas x = some d → held x = none →
    (∀ o, d.content ≠ .value o) ∧ (x ∈ stale ∨ d.handler = none)

structure Models (s : State V Name) (held : Option Name → Option (Object V))
    (stale : Set (Option Name)) : Prop extends Holds fits s held stale where
  accounted : Accounted (fun x => (held x).map Object.number) s.constructed s.destroyed

end Ownership

variable {fits : ℕ → Bool} {s t : State V Name} {x y : Option Name} {o : Object V}
  {held : Option Name → Option (Object V)} {stale : Set (Option Name)}

theorem held_full (o : Object V) : (full fits o).held fits = some o := by
  cases hfits : fits o.type with
  | true => simp [full, place, AnyData.held, hfits]
  | false => simp [full, place, AnyData.held, hfits]

theorem eq_full {d : AnyData V} (h : d.held fits = some o) : d = full fits o := by
  obtain ⟨handler, content⟩ := d
  cases handler with
  | none => cases h
  | some type =>
    cases content with
    | raw => cases h
    | pointer p =>
      obtain ⟨⟨hfits, rfl⟩, hp⟩ := Option.ite_none_right_eq_some.mp h
      cases Option.some.inj hp
      simp [full, place, hfits]
    | value p =>
      obtain ⟨⟨hfits, rfl⟩, hp⟩ := Option.ite_none_right_eq_some.mp h
      cases Option.some.inj hp
      simp [full, place, hfits]

theorem content_full_ne (hfits : fits o.type = false) (p : Object V) :
    (full fits o).content ≠ .value p := by
  change place fits o ≠ _
  rw [place, hfits]
  exact nofun

omit [DecidableEq Name] in
theorem Owned.models (h : Owned fits s) : Models fits s (s.held fits) ∅ where
  full := fun x o ho => by
    obtain ⟨d, hd, hheld⟩ := Option.bind_eq_some_iff.mp ho
    rw [hd, eq_full hheld]
  vacant := fun x d hd hnone => by
    have hhandled := h.handled x
    rw [hnone, State.handler, hd] at hhandled
    refine ⟨fun o ho => ?_, .inr hhandled⟩
    have hvalue := h.inPlace x o (by rw [State.content, hd]; exact ho)
    rw [hnone] at hvalue
    cases hvalue
  accounted := h.accounted

omit [DecidableEq Name] in
theorem Models.held_none (h : Models fits s held stale) (hx : s.datas x = none) :
    held x = none := by
  cases ho : held x with
  | none => rfl
  | some o =>
    have hfull := h.full x o ho
    rw [hx] at hfull
    cases hfull

omit [DecidableEq Name] in
theorem Models.held_eq (h : Models fits s held ∅) : s.held fits = held := by
  funext x
  cases ho : held x with
  | some o => rw [State.held, h.full x o ho]; exact held_full o
  | none =>
    cases hd : s.datas x with
    | none => rw [State.held, hd]; rfl
    | some d =>
      have hhandler := (h.vacant x d hd ho).2.resolve_left (Set.notMem_empty x)
      rw [State.held, hd, Option.bind_some, AnyData.held, hhandler]

omit [DecidableEq Name] in
theorem Models.owned (h : Models fits s held ∅) (hsettled : s.datas none = none) :
    Owned fits s where
  handled := fun x => by
    rw [h.held_eq]
    cases ho : held x with
    | some o => rw [State.handler, h.full x o ho]; rfl
    | none =>
      cases hd : s.datas x with
      | none => rw [State.handler, hd]; rfl
      | some d =>
        rw [State.handler, hd]
        exact (h.vacant x d hd ho).2.resolve_left (Set.notMem_empty x)
  inPlace := fun x o hcontent => by
    rw [h.held_eq]
    cases hd : s.datas x with
    | none =>
      rw [State.content, hd] at hcontent
      cases hcontent
    | some d =>
      rw [State.content, hd] at hcontent
      cases hp : held x with
      | none => exact absurd hcontent ((h.vacant x d hd hp).1 o)
      | some p =>
        rw [h.full x p hp] at hd
        obtain rfl := Option.some.inj hd
        change place fits p = .value o at hcontent
        rw [place] at hcontent
        split at hcontent
        · cases hcontent
          rfl
        · cases hcontent
  accounted := by
    rw [h.held_eq]
    exact h.accounted
  settled := hsettled
  atEnd := fun hnone => h.accounted.atEnd fun x => by rw [h.held_none (hnone x)]; rfl

/-! ## Operations on one object -/

/-- The data of one object change, and with them what it holds. -/
theorem Holds.of_datas {data : Option (AnyData V)} {value : Option (Object V)}
    {stale' : Set (Option Name)} (h : Holds fits s held stale)
    (hdatas : t.datas = Function.update s.datas x data)
    (hfull : ∀ o, value = some o → data = some (AnyOwnership.full fits o))
    (hvacant : ∀ d, data = some d → value = none →
      (∀ o, d.content ≠ .value o) ∧ (x ∈ stale' ∨ d.handler = none))
    (hstale : ∀ z, z ≠ x → z ∈ stale → z ∈ stale') :
    Holds fits t (Function.update held x value) stale' where
  full := fun z o hz => by
    rw [hdatas]
    by_cases hzx : z = x
    · subst hzx
      rw [Function.update_self] at hz ⊢
      exact hfull o hz
    · rw [Function.update_of_ne hzx] at hz ⊢
      exact h.full z o hz
  vacant := fun z d hd hz => by
    rw [hdatas] at hd
    by_cases hzx : z = x
    · subst hzx
      rw [Function.update_self] at hz hd
      exact hvacant d hd hz
    · rw [Function.update_of_ne hzx] at hz hd
      exact (h.vacant z d hd hz).imp_right (Or.imp_left (hstale z hzx))

theorem numbers_update (held : Option Name → Option (Object V)) (x : Option Name)
    (value : Option (Object V)) :
    (fun z => (Function.update held x value z).map Object.number) =
      Function.update (fun z => (held z).map Object.number) x (value.map Object.number) :=
  Function.comp_update (Option.map Object.number) held x value

theorem Models.of_datas {data : Option (AnyData V)} {value : Option (Object V)}
    {stale' : Set (Option Name)} (h : Models fits s held stale)
    (hdatas : t.datas = Function.update s.datas x data)
    (hfull : ∀ o, value = some o → data = some (AnyOwnership.full fits o))
    (hvacant : ∀ d, data = some d → value = none →
      (∀ o, d.content ≠ .value o) ∧ (x ∈ stale' ∨ d.handler = none))
    (hstale : ∀ z, z ≠ x → z ∈ stale → z ∈ stale')
    (haccounted : Accounted (Function.update (fun z => (held z).map Object.number) x
      (value.map Object.number)) t.constructed t.destroyed) :
    Models fits t (Function.update held x value) stale' where
  toHolds := h.toHolds.of_datas hdatas hfull hvacant hstale
  accounted := by rwa [numbers_update]

omit [DecidableEq Name] in
theorem Models.handler_eq (h : Models fits s held stale) (hx : held x = some o) :
    s.handler x = some o.type := by
  rw [State.handler, h.full x o hx]
  rfl

omit [DecidableEq Name] in
theorem Models.content_eq (h : Models fits s held stale) (hx : held x = some o) :
    s.content x = place fits o := by
  rw [State.content, h.full x o hx]
  rfl

omit [DecidableEq Name] in
theorem Models.content_ne (h : Models fits s held stale) (hx : held x = none) (o : Object V) :
    s.content x ≠ .value o := by
  cases hd : s.datas x with
  | none =>
    rw [State.content, hd]
    exact nofun
  | some d =>
    rw [State.content, hd]
    exact (h.vacant x d hd hx).1 o

omit [DecidableEq Name] in
theorem Models.handler_none (h : Models fits s held ∅) (hx : held x = none) :
    s.handler x = none := by
  cases hd : s.datas x with
  | none => rw [State.handler, hd]; rfl
  | some d =>
    rw [State.handler, hd]
    exact (h.vacant x d hd hx).2.resolve_left (Set.notMem_empty x)

theorem setData_none_iff {data : Option (AnyData V)} (hdata : data = none ↔ s.datas x = none)
    (z : Option Name) : (setData x s data).datas z = none ↔ s.datas z = none := by
  change Function.update s.datas x data z = none ↔ _
  by_cases hzx : z = x
  · rw [hzx, Function.update_self, hdata]
  · rw [Function.update_of_ne hzx]

theorem setData_self (x : Option Name) (s : State V Name) (data : AnyData V) :
    (setData x s (some data)).datas x ≠ none := by
  change Function.update s.datas x (some data) x ≠ none
  rw [Function.update_self]
  exact Option.some_ne_none data

theorem setData_of_ne {z : Option Name} (hzx : z ≠ x) (s : State V Name)
    (data : Option (AnyData V)) : (setData x s data).datas z = s.datas z := by
  change Function.update s.datas x data z = s.datas z
  rw [Function.update_of_ne hzx]

/-- An object begins to exist without a value. -/
theorem Models.allocate (h : Models fits s held stale) (hx : s.datas x = none) :
    Models fits (setData x s (some ⟨none, .raw⟩)) held stale := by
  have hnone := h.held_none hx
  rw [← Function.update_eq_self x held, hnone]
  refine h.of_datas rfl nofun (fun d hd _ => ?_) (fun _ _ hz => hz) ?_
  · rw [← Option.some.inj hd]
    exact ⟨nofun, .inr rfl⟩
  · rw [Option.map_none, ← Option.map_none Object.number, ← hnone, Function.update_eq_self]
    exact h.accounted

/-- An object that holds nothing is gone. -/
theorem Models.release {stale' : Set (Option Name)} (h : Models fits s held stale)
    (hx : held x = none) (hstale : ∀ z, z ≠ x → z ∈ stale → z ∈ stale') :
    Models fits (setData x s none) held stale' := by
  rw [← Function.update_eq_self x held, hx]
  refine h.of_datas rfl nofun (fun d hd => nomatch hd) hstale ?_
  rw [← hx, Function.update_eq_self]
  exact h.accounted

/-- The handler of an object that holds nothing is cleared. -/
theorem Models.clear (h : Models fits s held (insert x stale)) (hx : held x = none) :
    Models fits (setHandler x s none) held stale := by
  rw [← Function.update_eq_self x held, hx]
  refine h.of_datas rfl nofun (fun d hd _ => ?_)
    (fun z hzx hz => (Set.mem_insert_iff.mp hz).resolve_left hzx) ?_
  · obtain ⟨c, hc, rfl⟩ := Option.map_eq_some_iff.mp hd
    exact ⟨(h.vacant x c hc hx).1, .inr rfl⟩
  · rw [← hx, Function.update_eq_self]
    exact h.accounted

/-- A value is constructed in an object that holds nothing. -/
theorem Models.create (h : Models fits s held stale) (hx : held x = none)
    (hexists : s.datas x ≠ none) (type : ℕ) (v : V) :
    ∃ t, create fits x s type v = .ok t ∧
      Models fits t (Function.update held x (some ⟨type, s.constructed, v⟩)) stale ∧
      ∀ z, t.datas z = none ↔ s.datas z = none := by
  let o : Object V := ⟨type, s.constructed, v⟩
  refine ⟨{ setData x s (some (AnyOwnership.full fits o)) with constructed := s.constructed + 1 },
    ?_, ?_, setData_none_iff (iff_of_false nofun hexists)⟩
  · rw [AnyOwnership.create]
    split
    next p hp => exact absurd hp (h.content_ne hx p)
    next => rfl
  · refine h.of_datas rfl (fun p hp => ?_) nofun (fun _ _ hz => hz) ?_
    · obtain rfl := Option.some.inj hp
      rfl
    · exact h.accounted.construct (by rw [hx]; rfl)

/-- What is held is destroyed, whose handler is stale then. -/
theorem Models.handleDestruct (h : Models fits s held stale) (hx : held x = some o) :
    ∃ t, handleDestruct fits x s o.type = .ok t ∧
      Models fits t (Function.update held x none) (insert x stale) ∧
      ∀ z, t.datas z = none ↔ s.datas z = none := by
  have hdata := h.full x o hx
  have hnumber : (fun z => (held z).map Object.number) x = some o.number := by
    simp only [hx, Option.map_some]
  have haccounted := h.accounted.destruct hnumber
  have hstale : ∀ z, z ≠ x → z ∈ stale → z ∈ insert x stale := fun z _ => Set.mem_insert_of_mem x
  cases hfits : fits o.type with
  | true =>
    refine ⟨{ setContent x s .raw with destroyed := s.destroyed ++ [o.number] }, ?_, ?_,
      setData_none_iff (by rw [hdata]; exact iff_of_false nofun nofun)⟩
    · rw [AnyOwnership.handleDestruct, h.content_eq hx, place, hfits]
      simp only [if_true]
    · refine h.of_datas rfl nofun (fun d hd _ => ?_) hstale haccounted
      obtain ⟨c, -, rfl⟩ := Option.map_eq_some_iff.mp hd
      exact ⟨nofun, .inl (Set.mem_insert x stale)⟩
  | false =>
    refine ⟨{ s with destroyed := s.destroyed ++ [o.number] }, ?_, ?_, fun _ => Iff.rfl⟩
    · rw [AnyOwnership.handleDestruct, h.content_eq hx, place, hfits]
      exact if_pos ⟨rfl, (h.accounted.alive x o.number hnumber).2⟩
    · refine h.of_datas (Function.update_eq_self x s.datas).symm nofun (fun d hd _ => ?_) hstale
        haccounted
      rw [hdata] at hd
      rw [← Option.some.inj hd]
      exact ⟨content_full_ne hfits, .inl (Set.mem_insert x stale)⟩

/-- The content of an object that exists is written, and then its handler. -/
theorem datas_written (hexists : s.datas y ≠ none) (content : Content V) (type : ℕ) :
    (setHandler y (setContent y s content) (some type)).datas =
      Function.update s.datas y (some ⟨some type, content⟩) := by
  obtain ⟨d, hd⟩ := Option.ne_none_iff_exists'.mp hexists
  change Function.update (Function.update s.datas y _) y _ = _
  rw [Function.update_idem]
  simp only [setContent, setData, hd, Option.map_some, Function.update_self]

/-- Another value is constructed in the second object, and then the one in the first is destroyed. -/
theorem Models.callMove_small (h : Models fits s held stale) (hx : held x = some o)
    (hy : held y = none) (hxy : x ≠ y) (hexists : s.datas y ≠ none) (hfits : fits o.type = true) :
    ∃ t p, handleMove fits x y s o.type = .ok t ∧ p.value = o.value ∧
      Models fits t (Function.update (Function.update held y (some p)) x none) (insert x stale) ∧
      ∀ z, t.datas z = none ↔ s.datas z = none := by
  let p : Object V := { o with number := s.constructed }
  let s' : State V Name := { setHandler y (setContent y s (.value p)) (some o.type) with
    constructed := s.constructed + 1 }
  have hdatas : s'.datas = Function.update s.datas y (some (AnyOwnership.full fits p)) := by
    rw [AnyOwnership.full, place, hfits]
    exact datas_written hexists (.value p) o.type
  have hnew : Models fits s' (Function.update held y (some p)) stale := by
    refine h.of_datas hdatas (fun q hq => ?_) (fun _ _ hnone => nomatch hnone)
      (fun _ _ hz => hz) ?_
    · obtain rfl := Option.some.inj hq
      rfl
    · exact h.accounted.construct (by rw [hy]; rfl)
  have hx' : Function.update held y (some p) x = some o := by rw [Function.update_of_ne hxy, hx]
  obtain ⟨t, ht, hmodels, hnone⟩ := hnew.handleDestruct hx'
  refine ⟨t, p, ?_, rfl, hmodels, fun z => (hnone z).trans ?_⟩
  · rw [← ht]
    simp only [handleMove, AnyOwnership.handleDestruct]
    rw [h.content_eq hx, hnew.content_eq hx', place, hfits]
    split
    next q hq => exact absurd hq (h.content_ne hy q)
    next => rfl
  · rw [hdatas]
    exact setData_none_iff (iff_of_false (Option.some_ne_none _) hexists) z

/-- The address of the value is copied to the second object. -/
theorem Models.callMove_big (h : Models fits s held stale) (hx : held x = some o)
    (hy : held y = none) (hxy : x ≠ y) (hexists : s.datas y ≠ none) (hfits : fits o.type = false) :
    ∃ t, handleMove fits x y s o.type = .ok t ∧
      Models fits t (Function.update (Function.update held y (some o)) x none) (insert x stale) ∧
      ∀ z, t.datas z = none ↔ s.datas z = none := by
  let t : State V Name := setHandler y (setContent y s (.pointer o)) (some o.type)
  have hdatas : t.datas = Function.update s.datas y (some (AnyOwnership.full fits o)) := by
    rw [AnyOwnership.full, place, hfits]
    exact datas_written hexists (.pointer o) o.type
  refine ⟨t, ?_, ⟨?_, ?_⟩, fun z => ?_⟩
  · simp only [handleMove]
    rw [h.content_eq hx, place, hfits]
    split
    next q hq => exact absurd hq (h.content_ne hy q)
    next => rfl
  · have hnew : Holds fits t (Function.update held y (some o)) stale := by
      refine h.toHolds.of_datas hdatas (fun q hq => ?_) (fun _ _ hnone => nomatch hnone)
        fun _ _ hz => hz
      obtain rfl := Option.some.inj hq
      rfl
    refine hnew.of_datas (Function.update_eq_self x t.datas).symm nofun (fun c hc _ => ?_)
      fun z _ => Set.mem_insert_of_mem x
    rw [hdatas, Function.update_of_ne hxy, h.full x o hx] at hc
    rw [← Option.some.inj hc]
    exact ⟨content_full_ne hfits, .inl (Set.mem_insert x stale)⟩
  · have hmove := h.accounted.move (x := y) (by rw [hy]; rfl) x
    rw [numbers_update, numbers_update]
    rwa [hx] at hmove
  · rw [hdatas]
    exact setData_none_iff (iff_of_false (Option.some_ne_none _) hexists) z

/-- What is held moves to an object that holds nothing. -/
theorem Models.callMove (h : Models fits s held stale) (hx : held x = some o) (hy : held y = none)
    (hexists : s.datas y ≠ none) :
    ∃ t p, callMove fits x y s = .ok t ∧ p.value = o.value ∧
      Models fits t (Function.update (Function.update held y (some p)) x none) (insert x stale) ∧
      ∀ z, t.datas z = none ↔ s.datas z = none := by
  have hxy : x ≠ y := by
    rintro rfl
    rw [hx] at hy
    cases hy
  rw [AnyOwnership.callMove, h.handler_eq hx]
  cases hfits : fits o.type with
  | true => exact h.callMove_small hx hy hxy hexists hfits
  | false =>
    obtain ⟨t, ht, hmodels, hnone⟩ := h.callMove_big hx hy hxy hexists hfits
    exact ⟨t, o, ht, rfl, hmodels, hnone⟩

/-! ## Operations on objects -/

theorem Models.destroy (h : Models fits s held ∅) (x : Option Name) :
    ∃ t, destroy fits x s = .ok t ∧ Models fits t (Function.update held x none) ∅ ∧
      ∀ z, t.datas z = none ↔ s.datas z = none := by
  cases hx : held x with
  | none =>
    refine ⟨s, ?_, ?_, fun _ => Iff.rfl⟩
    · rw [AnyOwnership.destroy, h.handler_none hx]
    · rwa [← hx, Function.update_eq_self]
  | some o =>
    obtain ⟨s', hs', hmodels, hnone⟩ := h.handleDestruct hx
    refine ⟨setHandler x s' none, ?_, hmodels.clear (Function.update_self ..), fun z => ?_⟩
    · rw [AnyOwnership.destroy, h.handler_eq hx]
      simp only [hs']
      rfl
    · exact (setData_none_iff Option.map_eq_none_iff z).trans (hnone z)

/-- The destructor, behind which the object is gone. -/
theorem Models.destructor (h : Models fits s held ∅) (x : Option Name) :
    ∃ t, destructor fits x s = .ok t ∧ Models fits t (Function.update held x none) ∅ ∧
      t.datas x = none ∧ ∀ z, z ≠ x → (t.datas z = none ↔ s.datas z = none) := by
  have hgone : ∀ s' : State V Name, (∀ z, s'.datas z = none ↔ s.datas z = none) →
      (setData x s' none).datas x = none ∧
        ∀ z, z ≠ x → ((setData x s' none).datas z = none ↔ s.datas z = none) := by
    intro s' hnone
    refine ⟨Function.update_self .., fun z hzx => ?_⟩
    rw [setData_of_ne hzx, hnone z]
  cases hx : held x with
  | none =>
    refine ⟨setData x s none, ?_, ?_, hgone s fun _ => Iff.rfl⟩
    · rw [AnyOwnership.destructor, h.handler_none hx]
    · rw [← hx, Function.update_eq_self]
      exact h.release hx fun _ _ hz => hz
  | some o =>
    obtain ⟨s', hs', hmodels, hnone⟩ := h.handleDestruct hx
    refine ⟨setData x s' none, ?_, ?_, hgone s' hnone⟩
    · rw [AnyOwnership.destructor, h.handler_eq hx]
      simp only [hs']
      rfl
    · exact hmodels.release (Function.update_self ..)
        fun z hzx hz => (Set.mem_insert_iff.mp hz).resolve_left hzx

/-- What is held moves to an object that holds nothing, which leaves the other one empty. -/
theorem Models.take (h : Models fits s held ∅) (hx : held x = none) (hexists : s.datas x ≠ none)
    (y : Option Name) :
    ∃ t value, take fits x y s = .ok t ∧ value.map Object.value = (held y).map Object.value ∧
      Models fits t (Function.update (Function.update held x value) y none) ∅ ∧
      ∀ z, t.datas z = none ↔ s.datas z = none := by
  cases hy : held y with
  | none =>
    refine ⟨s, none, ?_, rfl, ?_, fun _ => Iff.rfl⟩
    · rw [AnyOwnership.take, h.handler_none hy]
    · have hsame : Function.update (Function.update held x none) y none = held := by
        rw [← hx, Function.update_eq_self, hx, ← hy, Function.update_eq_self]
      rwa [hsame]
  | some o =>
    obtain ⟨s', p, hs', hp, hmodels, hnone⟩ := h.callMove hy hx hexists
    refine ⟨setHandler y s' none, some p, ?_, congrArg some hp,
      hmodels.clear (Function.update_self ..), fun z => ?_⟩
    · rw [AnyOwnership.take, h.handler_eq hy]
      simp only [hs']
      rfl
    · exact (setData_none_iff Option.map_eq_none_iff z).trans (hnone z)

omit [DecidableEq Name] in
/-- What an operation makes of the objects, when it is not a swap. -/
theorem Models.sound {action : Action V Name} (h : Models fits t held ∅)
    (hsettled : t.datas none = none) (hswap : ∀ x y, action ≠ .swap x y) :
    Sound fits s action t where
  owned := h.owned hsettled
  exchanged := fun x y hxy => absurd hxy (hswap x y)

theorem Models.moveFrom (h : Models fits s held ∅) (hx : s.datas x = none) (y : Option Name) :
    ∃ t held', moveFrom fits x y s = .ok t ∧ Models fits t held' ∅ ∧
      ∀ z, z ≠ x → (t.datas z = none ↔ s.datas z = none) := by
  obtain ⟨t, value, ht, -, hmodels, hnone⟩ :=
    (h.allocate hx).take (h.held_none hx) (setData_self x s _) y
  refine ⟨t, _, ht, hmodels, fun z hzx => (hnone z).trans ?_⟩
  rw [setData_of_ne hzx]

theorem Models.moveAssign (h : Models fits s held ∅) (hexists : s.datas x ≠ none)
    (y : Option Name) :
    ∃ t held', moveAssign fits x y s = .ok t ∧ Models fits t held' ∅ ∧
      ∀ z, t.datas z = none ↔ s.datas z = none := by
  obtain ⟨s', hs', hmodels', hnone'⟩ := h.destroy x
  obtain ⟨t, value, ht, -, hmodels, hnone⟩ := hmodels'.take (Function.update_self ..)
    (fun hx => hexists ((hnone' x).mp hx)) y
  refine ⟨t, _, ?_, hmodels, fun z => (hnone z).trans (hnone' z)⟩
  rw [AnyOwnership.moveAssign, hs']
  exact ht

theorem Models.createWith (h : Models fits s held ∅) (hx : s.datas x = none) (type : ℕ) (v : V)
    (throws : Bool) :
    ∃ t held', createWith fits x s type v throws = .ok t ∧ Models fits t held' ∅ ∧
      ∀ z, z ≠ x → (t.datas z = none ↔ s.datas z = none) := by
  cases throws with
  | true => exact ⟨s, held, rfl, h, fun _ _ => Iff.rfl⟩
  | false =>
    obtain ⟨t, ht, hmodels, hnone⟩ :=
      (h.allocate hx).create (h.held_none hx) (setData_self x s _) type v
    refine ⟨t, _, ht, hmodels, fun z hzx => (hnone z).trans ?_⟩
    rw [setData_of_ne hzx]

theorem Models.emplace (h : Models fits s held ∅) (hexists : s.datas x ≠ none) (type : ℕ) (v : V)
    (throws : Bool) :
    ∃ t held', emplace fits x s type v throws = .ok t ∧ Models fits t held' ∅ ∧
      ∀ z, t.datas z = none ↔ s.datas z = none := by
  obtain ⟨s', hs', hmodels', hnone'⟩ := h.destroy x
  rw [AnyOwnership.emplace, hs']
  cases throws with
  | true => exact ⟨s', _, rfl, hmodels', hnone'⟩
  | false =>
    obtain ⟨t, ht, hmodels, hnone⟩ := hmodels'.create (Function.update_self ..)
      (fun hx => hexists ((hnone' x).mp hx)) type v
    exact ⟨t, _, ht, hmodels, fun z => (hnone z).trans (hnone' z)⟩

theorem Models.assign {x : Name} (h : Models fits s held ∅) (hexists : s.datas (some x) ≠ none)
    (hsettled : s.datas none = none) (type : ℕ) (v : V) (throws : Bool) :
    ∃ t held', assign fits (some x) s type v throws = .ok t ∧ Models fits t held' ∅ ∧
      t.datas none = none := by
  cases throws with
  | true => exact ⟨s, held, rfl, h, hsettled⟩
  | false =>
    obtain ⟨s₁, held₁, hs₁, hmodels₁, hnone₁⟩ := h.createWith hsettled type v false
    obtain ⟨s₂, held₂, hs₂, hmodels₂, hnone₂⟩ := hmodels₁.moveAssign
      (fun hx => hexists ((hnone₁ _ (Option.some_ne_none x)).mp hx)) none
    obtain ⟨t, ht, hmodels, hgone, -⟩ := hmodels₂.destructor none
    refine ⟨t, _, ?_, hmodels, hgone⟩
    rw [AnyOwnership.assign, if_neg Bool.false_ne_true, hs₁]
    change (AnyOwnership.moveAssign fits (some x) none s₁ >>= _) = _
    rw [hs₂]
    exact ht

omit [DecidableEq Name] in
/-- The handlers of objects that hold something are not stale. -/
theorem Models.settle (h : Models fits s held stale) (hstale : ∀ z ∈ stale, held z ≠ none) :
    Models fits s held ∅ where
  full := h.full
  vacant := fun z d hd hz => (h.vacant z d hd hz).imp_right fun hor =>
    .inr (hor.resolve_left fun hmem => hstale z hmem hz)
  accounted := h.accounted

/-- The three moves of a swap, from and to a temporary object. -/
theorem Models.swapBoth {x y : Name} {o p : Object V} (h : Models fits s held ∅)
    (hsettled : s.datas none = none) (hxy : x ≠ y) (hx : held (some x) = some o)
    (hy : held (some y) = some p) :
    ∃ t held', swap fits (some x) (some y) s = .ok t ∧ Models fits t held' ∅ ∧
      (held' (some x)).map Object.value = some p.value ∧
      (held' (some y)).map Object.value = some o.value ∧ t.datas none = none := by
  have hne : (some x : Option Name) ≠ some y := fun h => hxy (Option.some.inj h)
  have hx0 : (some x : Option Name) ≠ none := Option.some_ne_none x
  have hy0 : (some y : Option Name) ≠ none := Option.some_ne_none y
  have hexists : ∀ (z : Name) q, held (some z) = some q → s.datas (some z) ≠ none := by
    intro z q hz hnone
    rw [h.held_none hnone] at hz
    cases hz
  -- from `x` to the temporary object
  have hpresent : ∀ z : Name, (setData none s (some ⟨none, .raw⟩)).datas (some z) = none ↔
      s.datas (some z) = none := by
    intro z
    rw [setData_of_ne (Option.some_ne_none z)]
  obtain ⟨s₁, o₁, hs₁, ho₁, hmodels₁, hnone₁⟩ :=
    (h.allocate hsettled).callMove hx (h.held_none hsettled) (setData_self none s _)
  -- from `y` to `x`
  obtain ⟨s₂, p₂, hs₂, hp₂, hmodels₂, hnone₂⟩ := hmodels₁.callMove (x := some y) (y := some x)
    (by rw [Function.update_of_ne hne.symm, Function.update_of_ne hy0, hy])
    (Function.update_self ..)
    (fun hnone => hexists x o hx ((hpresent x).mp ((hnone₁ _).mp hnone)))
  -- from the temporary object to `y`
  obtain ⟨s₃, o₃, hs₃, ho₃, hmodels₃, hnone₃⟩ := hmodels₂.callMove (x := none) (y := some y)
    (by rw [Function.update_of_ne hy0.symm, Function.update_of_ne hx0.symm,
      Function.update_of_ne hx0.symm, Function.update_self])
    (Function.update_self ..)
    (fun hnone => hexists y p hy ((hpresent y).mp ((hnone₁ _).mp ((hnone₂ _).mp hnone))))
  have hheldx : ∀ value, Function.update (Function.update (Function.update (Function.update
      (Function.update (Function.update held none (some o₁)) (some x) none) (some x) (some p₂))
      (some y) none) (some y) (some o₃)) none value (some x) = some p₂ := by
    intro value
    rw [Function.update_of_ne hx0, Function.update_of_ne hne, Function.update_of_ne hne,
      Function.update_self]
  have hheldy : ∀ value, Function.update (Function.update (Function.update (Function.update
      (Function.update (Function.update held none (some o₁)) (some x) none) (some x) (some p₂))
      (some y) none) (some y) (some o₃)) none value (some y) = some o₃ := by
    intro value
    rw [Function.update_of_ne hy0, Function.update_self]
  have hcleared := (hmodels₃.clear (Function.update_self ..)).settle fun z hz => by
    rcases Set.mem_insert_iff.mp hz with rfl | hz
    · rw [hheldy]
      exact Option.some_ne_none _
    · rcases Set.mem_insert_iff.mp hz with rfl | hz
      · rw [hheldx]
        exact Option.some_ne_none _
      · exact absurd hz (Set.notMem_empty z)
  obtain ⟨t, ht, hmodels, hgone, -⟩ := hcleared.destructor none
  refine ⟨t, _, ?_, hmodels, ?_, ?_, hgone⟩
  · rw [AnyOwnership.swap, h.handler_eq hx, h.handler_eq hy]
    simp only [if_neg hne]
    rw [hs₁]
    change (AnyOwnership.callMove fits (some y) (some x) s₁ >>= _) = _
    rw [hs₂]
    change (AnyOwnership.callMove fits none (some y) s₂ >>= _) = _
    rw [hs₃]
    exact ht
  · rw [Function.update_idem, hheldx]
    exact congrArg some hp₂
  · rw [Function.update_idem, hheldy]
    exact congrArg some (ho₃.trans ho₁)

theorem Models.swap {x y : Name} (h : Models fits s held ∅) (hsettled : s.datas none = none)
    (hx : s.datas (some x) ≠ none) (hy : s.datas (some y) ≠ none) :
    ∃ t held', swap fits (some x) (some y) s = .ok t ∧ Models fits t held' ∅ ∧
      (held' (some x)).map Object.value = (held (some y)).map Object.value ∧
      (held' (some y)).map Object.value = (held (some x)).map Object.value ∧
      t.datas none = none := by
  -- An object that holds nothing takes what the other one holds.
  have htake : ∀ a b : Name, held (some a) = none → s.datas (some a) ≠ none →
      (∃ p, held (some b) = some p) →
      ∃ t held', AnyOwnership.take fits (some a) (some b) s = .ok t ∧ Models fits t held' ∅ ∧
        (held' (some a)).map Object.value = (held (some b)).map Object.value ∧
        (held' (some b)).map Object.value = (held (some a)).map Object.value ∧
        t.datas none = none := by
    rintro a b ha hexists ⟨p, hb⟩
    have hab : (some a : Option Name) ≠ some b := by
      intro hab
      rw [hab, hb] at ha
      cases ha
    obtain ⟨t, value, ht, hvalue, hmodels, hnone⟩ := h.take ha hexists (some b)
    refine ⟨t, _, ht, hmodels, ?_, ?_, (hnone none).mpr hsettled⟩
    · rw [Function.update_of_ne hab, Function.update_self, hvalue]
    · rw [Function.update_self, ha]
  cases hheldx : held (some x) with
  | none =>
    cases hheldy : held (some y) with
    | none =>
      refine ⟨s, held, ?_, h, by rw [hheldx], by rw [hheldy], hsettled⟩
      rw [AnyOwnership.swap, h.handler_none hheldx, h.handler_none hheldy]
    | some p =>
      obtain ⟨t, held', ht, hmodels, hvalues⟩ := htake x y hheldx hx ⟨p, hheldy⟩
      rw [hheldx, hheldy] at hvalues
      refine ⟨t, held', ?_, hmodels, hvalues⟩
      rw [AnyOwnership.take, h.handler_eq hheldy] at ht
      rw [AnyOwnership.swap, h.handler_none hheldx, h.handler_eq hheldy]
      exact ht
  | some o =>
    cases hheldy : held (some y) with
    | none =>
      obtain ⟨t, held', ht, hmodels, hvaluey, hvaluex, hsettled'⟩ := htake y x hheldy hy ⟨o, hheldx⟩
      rw [hheldx] at hvaluey
      rw [hheldy] at hvaluex
      refine ⟨t, held', ?_, hmodels, hvaluex, hvaluey, hsettled'⟩
      rw [AnyOwnership.take, h.handler_eq hheldx] at ht
      rw [AnyOwnership.swap, h.handler_eq hheldx, h.handler_none hheldy]
      exact ht
    | some p =>
      by_cases hxy : x = y
      · subst hxy
        rw [hheldx] at hheldy
        refine ⟨s, held, ?_, h, ?_, ?_, hsettled⟩
        · rw [AnyOwnership.swap, h.handler_eq hheldx]
          exact if_pos rfl
        · rw [hheldx, hheldy]
        · rw [hheldx]
      · exact h.swapBoth hsettled hxy hheldx hheldy

omit [DecidableEq Name] in
theorem owned_initial : Owned fits (State.initial : State V Name) where
  handled := fun _ => rfl
  inPlace := fun _ _ => nofun
  accounted := ⟨List.nodup_nil, fun _ _ => nofun, fun _ _ _ => nofun,
    fun _ hv => absurd hv List.not_mem_nil, fun _ hv => absurd hv (Nat.not_lt_zero _)⟩
  settled := rfl
  atEnd := fun _ => List.Perm.refl []

theorem Owned.step (h : Owned fits s) (action : Action V Name) :
    ∃ t, step fits s action = .ok t ∧ Sound fits s action t := by
  have hmodels := h.models
  have hnop : (∀ x y, action ≠ .swap x y) → Sound fits s action s :=
    hmodels.sound h.settled
  cases action with
  | create x =>
    rw [AnyOwnership.step]
    split
    next hx =>
      refine ⟨_, rfl, (hmodels.allocate hx).sound ?_ fun x y => nofun⟩
      rw [setData_of_ne (Option.some_ne_none x).symm, h.settled]
    next => exact ⟨s, rfl, hnop fun x y => nofun⟩
  | createWith x type v throws =>
    rw [AnyOwnership.step]
    split
    next hx =>
      obtain ⟨t, held, ht, hmodels, hnone⟩ := hmodels.createWith hx type v throws
      exact ⟨t, ht, hmodels.sound ((hnone none (Option.some_ne_none x).symm).mpr h.settled)
        fun x y => nofun⟩
    next => exact ⟨s, rfl, hnop fun x y => nofun⟩
  | moveFrom x y =>
    rw [AnyOwnership.step]
    split
    next hxy =>
      obtain ⟨t, held, ht, hmodels, hnone⟩ := hmodels.moveFrom hxy.1 (some y)
      exact ⟨t, ht, hmodels.sound ((hnone none (Option.some_ne_none x).symm).mpr h.settled)
        fun x y => nofun⟩
    next => exact ⟨s, rfl, hnop fun x y => nofun⟩
  | moveAssign x y =>
    rw [AnyOwnership.step]
    split
    next hxy =>
      obtain ⟨t, held, ht, hmodels, hnone⟩ := hmodels.moveAssign hxy.1 (some y)
      exact ⟨t, ht, hmodels.sound ((hnone none).mpr h.settled) fun x y => nofun⟩
    next => exact ⟨s, rfl, hnop fun x y => nofun⟩
  | assign x type v throws =>
    rw [AnyOwnership.step]
    split
    next hx =>
      obtain ⟨t, held, ht, hmodels, hsettled⟩ := hmodels.assign hx h.settled type v throws
      exact ⟨t, ht, hmodels.sound hsettled fun x y => nofun⟩
    next => exact ⟨s, rfl, hnop fun x y => nofun⟩
  | emplace x type v throws =>
    rw [AnyOwnership.step]
    split
    next hx =>
      obtain ⟨t, held, ht, hmodels, hnone⟩ := hmodels.emplace hx type v throws
      exact ⟨t, ht, hmodels.sound ((hnone none).mpr h.settled) fun x y => nofun⟩
    next => exact ⟨s, rfl, hnop fun x y => nofun⟩
  | reset x =>
    rw [AnyOwnership.step]
    split
    next hx =>
      obtain ⟨t, ht, hmodels, hnone⟩ := hmodels.destroy (some x)
      exact ⟨t, ht, hmodels.sound ((hnone none).mpr h.settled) fun x y => nofun⟩
    next => exact ⟨s, rfl, hnop fun x y => nofun⟩
  | swap x y =>
    rw [AnyOwnership.step]
    split
    next hxy =>
      obtain ⟨t, held, ht, hmodels, hvalues, hvalues', hsettled⟩ :=
        hmodels.swap h.settled hxy.1 hxy.2
      refine ⟨t, ht, hmodels.owned hsettled, ?_⟩
      rintro x y ⟨⟩ - -
      rw [hmodels.held_eq]
      exact ⟨hvalues, hvalues'⟩
    next hxy =>
      refine ⟨s, rfl, h, ?_⟩
      rintro x y ⟨⟩ hx hy
      exact absurd ⟨hx, hy⟩ hxy
  | destroy x =>
    rw [AnyOwnership.step]
    split
    next hx =>
      obtain ⟨t, ht, hmodels, -, hnone⟩ := hmodels.destructor (some x)
      exact ⟨t, ht, hmodels.sound ((hnone none (Option.some_ne_none x).symm).mpr h.settled)
        fun x y => nofun⟩
    next => exact ⟨s, rfl, hnop fun x y => nofun⟩

/-- In every run, each call goes through, a handler is set exactly if a value of its type is held,
every value is held once or has been destroyed once, and objects that are swapped exchange what they
hold. -/
theorem anys_sound (fits : ℕ → Bool) (actions : List (Action V Name)) :
    RelatesAll (step fits) (Sound fits) (State.initial : State V Name) actions := by
  have hmeets : MeetsAll (step fits) (fun _ _ => True) (State.initial : State V Name) actions :=
    meetsAll_of_forall (fun _ _ => trivial) _ _
  refine relatesAll_of_meetsAll (Owned fits) owned_initial (fun h _ => ?_) actions hmeets
  obtain ⟨t, ht, hsound⟩ := Owned.step h _
  exact ⟨t, ht, hsound, hsound.owned⟩

end Fimbulwinter.AnyOwnership
