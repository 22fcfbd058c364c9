import Fimbulwinter.AggregationLayout

/-! # `resize` and `try_reserve` of `utility::array`

Arrays on dynamic storage with exact reservation. Elements are numbered in the order of their
construction; an array has a column for each of its element types. What is left of elements that are
moved is left out, since these are destructed. -/
namespace Fimbulwinter.ArrayResize
open AggregationLayout

inductive Misuse
  /-- An element is constructed behind the elements that a block has been allocated for. -/
  | outside
  /-- An element is destructed where there is none. -/
  | raw
  deriving DecidableEq, Repr

/-- An element type, and what the initialization strategy makes of an element. -/
structure Kind (V : Type) where
  type : ElementType
  initial : V

structure Element (V : Type) where
  number : ℕ
  content : V

/-- `array_data`, and what has become of the elements that have been constructed. -/
structure State (V : Type) where
  /-- whether there is a block -/
  good : Bool
  capacity : ℕ
  columns : List (List (Element V))
  /-- the number of elements that have been constructed -/
  constructed : ℕ
  destroyed : List ℕ

variable {V : Type}

/-- `construct_range`, behind the elements of a column. -/
def constructRange (capacity constructed : ℕ) (column : List (Element V)) :
    List V → Except Misuse (List (Element V) × ℕ)
  | [] => .ok (column, constructed)
  | v :: vs =>
    if column.length < capacity then
      constructRange capacity (constructed + 1) (column ++ [⟨constructed, v⟩]) vs
    else .error .outside

/-- `construct_fill`, behind the elements of a column. -/
def constructFill (capacity constructed : ℕ) (column : List (Element V)) (v : V) :
    ℕ → Except Misuse (List (Element V) × ℕ)
  | 0 => .ok (column, constructed)
  | count + 1 =>
    if column.length < capacity then
      constructFill capacity (constructed + 1) (column ++ [⟨constructed, v⟩]) v count
    else .error .outside

/-- `construct_range` of several types. -/
def constructRanges (capacity constructed : ℕ) :
    List (List V) → Except Misuse (List (List (Element V)) × ℕ)
  | [] => .ok ([], constructed)
  | vs :: vss => do
    let (column, constructed) ← constructRange capacity constructed [] vs
    let (columns, constructed) ← constructRanges capacity constructed vss
    return (column :: columns, constructed)

/-- `construct_fill` of several types. -/
def constructFills (capacity constructed count : ℕ) :
    List (List (Element V)) → List (Kind V) → Except Misuse (List (List (Element V)) × ℕ)
  | column :: columns, kind :: kinds => do
    let (column, constructed) ← constructFill capacity constructed column kind.initial count
    let (columns, constructed) ← constructFills capacity constructed count columns kinds
    return (column :: columns, constructed)
  | _, _ => .ok ([], constructed)

/-- `destruct_range` -/
def destructRange (destroyed : List ℕ) : ℕ → List (Element V) → Except Misuse (List ℕ)
  | 0, _ => .ok destroyed
  | _ + 1, [] => .error .raw
  | count + 1, e :: es => destructRange (destroyed ++ [e.number]) count es

/-- `destruct_range` of several types. -/
def destructRanges (count : ℕ) (destroyed : List ℕ) :
    List (List (Element V)) → Except Misuse (List ℕ)
  | [] => .ok destroyed
  | column :: columns => do
    let destroyed ← destructRange destroyed count column
    destructRanges count destroyed columns

def State.contents (s : State V) : List (List V) := s.columns.map (List.map Element.content)

/-- `move`, to a block that has been allocated; the difference is one of `std::size_t`. -/
def move (kinds : List (Kind V)) (capacity : ℕ) (s : State V) :
    Except Misuse (List (List (Element V)) × ℕ) := do
  let (columns, constructed) ← constructRanges capacity s.constructed s.contents
  constructFills capacity constructed ((capacity + 2 ^ 64 - s.capacity) % 2 ^ 64) columns kinds

/-- The constructor from a size, which the default one calls with 0. -/
def create (kinds : List (Kind V)) (memory : Bool) (size : ℕ) : Except Misuse (State V) :=
  let columns := kinds.map fun _ => []
  if memory = true then do
    let (columns, constructed) ← constructFills size 0 size columns kinds
    return ⟨true, size, columns, constructed, []⟩
  else .ok ⟨false, 0, columns, 0, []⟩

/-- `purge` -/
def purge (s : State V) : Except Misuse (List ℕ) :=
  if s.good then destructRanges s.capacity s.destroyed s.columns else .ok s.destroyed

/-- `reserve_exact` -/
def reserveExact (size : ℕ) : ℕ := size

/-- `try_reallocate`; whether there is memory is up to the allocator. -/
def tryReallocate (kinds : List (Kind V)) (memory : Bool) (minCapacity : ℕ) (s : State V) :
    Except Misuse (Bool × State V) :=
  let newCapacity := reserveExact minCapacity
  if newCapacity < minCapacity then .ok (false, s)
  else if memory = false then .ok (false, s)
  else do
    let (columns, constructed) ← move kinds newCapacity s
    let destroyed ← purge s
    return (true, ⟨true, newCapacity, columns, constructed, destroyed⟩)

/-- `try_reserve` -/
def tryReserve (kinds : List (Kind V)) (memory : Bool) (minCapacity : ℕ) (s : State V) :
    Except Misuse (Bool × State V) :=
  if minCapacity ≤ s.capacity then .ok (true, s) else tryReallocate kinds memory minCapacity s

/-- `resize` -/
def resize (kinds : List (Kind V)) (memory : Bool) (size : ℕ) (s : State V) :
    Except Misuse (Bool × State V) :=
  tryReallocate kinds memory size s

/-! ## What should hold -/

/-- The arrays of the element types lie apart in the block for so many elements. -/
def Placed (kinds : List (Kind V)) (capacity : ℕ) : Prop :=
  match kinds.map Kind.type with
  | [] => True
  | u1 :: us => LaidOut 0 capacity u1 us

/-- The exact number of bytes for so many elements. -/
def totalBytes (kinds : List (Kind V)) (capacity : ℕ) : ℕ :=
  totalSize 0 capacity (kinds.map Kind.type)

/-- The columns are full, in a block that has them, and every element that has been constructed is
in one of them or has been destroyed once. -/
structure Valid (kinds : List (Kind V)) (s : State V) : Prop where
  complete : s.columns.length = kinds.length
  full : ∀ column ∈ s.columns, column.length = s.capacity
  bad : s.good = false → s.capacity = 0
  placed : 0 < s.capacity → Placed kinds s.capacity
  once : (s.destroyed ++ s.columns.flatten.map Element.number).Perm (List.range s.constructed)

/-- What the columns should become. -/
def resized (kinds : List (Kind V)) (size : ℕ) (contents : List (List V)) : List (List V) :=
  List.zipWith (fun vs kind => vs.take size ++ List.replicate (size - vs.length) kind.initial)
    contents kinds

/-- What a call should make of an array, which is destructed in the end. -/
def Meets (kinds : List (Kind V)) (size : ℕ) (s : State V)
    (result : Except Misuse (Bool × State V)) : Prop :=
  ∃ b t, result = .ok (b, t) ∧ Valid kinds t ∧
    (b = true → t.capacity = size ∧ t.contents = resized kinds size s.contents) ∧
    (b = false → t = s) ∧
    ∃ destroyed, purge t = .ok destroyed ∧ destroyed.Perm (List.range t.constructed)

structure Right (kinds : List (Kind V)) (memory : Bool) (n : ℕ) (s : State V) : Prop where
  resizes : Meets kinds n s (resize kinds memory n s)
  reserves : Meets kinds (max n s.capacity) s (tryReserve kinds memory n s)

/-- There is no memory, or the array does not shrink and the number of bytes is one of 64 bits. -/
def Fine (kinds : List (Kind V)) (memory : Bool) (n : ℕ) (s : State V) : Prop :=
  memory = true → s.capacity ≤ n ∧ (n = 0 ∨ totalBytes kinds n < 2 ^ 64)

/-! ## Columns -/

variable {capacity constructed count : ℕ} {column : List (Element V)} {vs : List V}

/-- Elements with these contents, and numbers from one on. -/
def numbered (constructed : ℕ) : List V → List (Element V)
  | [] => []
  | v :: vs => ⟨constructed, v⟩ :: numbered (constructed + 1) vs

theorem content_numbered (constructed : ℕ) (vs : List V) :
    (numbered constructed vs).map Element.content = vs := by
  induction vs generalizing constructed with
  | nil => rfl
  | cons v vs ih => rw [numbered, List.map_cons, ih]

theorem number_numbered (constructed : ℕ) (vs : List V) :
    (numbered constructed vs).map Element.number = List.range' constructed vs.length := by
  induction vs generalizing constructed with
  | nil => rfl
  | cons v vs ih => rw [numbered, List.map_cons, ih, List.length_cons, List.range'_succ]

theorem length_numbered (constructed : ℕ) (vs : List V) :
    (numbered constructed vs).length = vs.length := by
  rw [← List.length_map Element.content, content_numbered]

theorem constructRange_eq (h : column.length + vs.length ≤ capacity) :
    constructRange capacity constructed column vs =
      .ok (column ++ numbered constructed vs, constructed + vs.length) := by
  induction vs generalizing constructed column with
  | nil => rw [constructRange, numbered, List.append_nil]; rfl
  | cons v vs ih =>
    rw [List.length_cons] at h
    rw [constructRange, if_pos (by omega),
      ih (by rw [List.length_append, List.length_singleton]; omega), numbered, List.append_assoc,
      List.length_cons, Nat.add_right_comm, Nat.add_assoc]
    rfl

theorem constructRange_outside (constructed : ℕ) (column : List (Element V)) (vs : List V)
    (h : capacity < column.length + vs.length) :
    constructRange capacity constructed column vs = .error .outside ∨ capacity < column.length := by
  induction vs generalizing constructed column with
  | nil => exact .inr h
  | cons v vs ih =>
    rw [List.length_cons] at h
    rw [constructRange]
    split
    next hlt =>
      have hlength : (column ++ [(⟨constructed, v⟩ : Element V)]).length = column.length + 1 := by
        rw [List.length_append, List.length_singleton]
      refine (ih _ _ (by omega)).imp_right fun hout => ?_
      omega
    next => exact .inl rfl

theorem constructFill_eq_constructRange (v : V) (count : ℕ) :
    constructFill capacity constructed column v count =
      constructRange capacity constructed column (List.replicate count v) := by
  induction count generalizing constructed column with
  | zero => rfl
  | succ count ih => rw [constructFill, List.replicate_succ, constructRange, ih]

theorem destructRange_eq (destroyed : List ℕ) (column : List (Element V)) :
    destructRange destroyed column.length column =
      .ok (destroyed ++ column.map Element.number) := by
  induction column generalizing destroyed with
  | nil => rw [List.map_nil, List.append_nil]; rfl
  | cons e es ih =>
    rw [List.length_cons, destructRange, ih, List.append_assoc]
    rfl

/-! ## Several columns -/

theorem constructRanges_ok (constructed : ℕ) (vss : List (List V))
    (h : ∀ vs ∈ vss, vs.length ≤ capacity) :
    ∃ columns m, constructRanges capacity constructed vss = .ok (columns, constructed + m) ∧
      columns.map (List.map Element.content) = vss ∧
      columns.flatten.map Element.number = List.range' constructed m := by
  induction vss generalizing constructed with
  | nil => exact ⟨[], 0, rfl, rfl, rfl⟩
  | cons vs vss ih =>
    have hroom : ([] : List (Element V)).length + vs.length ≤ capacity := by
      rw [List.length_nil, Nat.zero_add]
      exact h vs List.mem_cons_self
    obtain ⟨columns, m, hcolumns, hcontents, hnumbers⟩ :=
      ih (constructed + vs.length) fun vs hvs => h vs (List.mem_cons_of_mem _ hvs)
    refine ⟨numbered constructed vs :: columns, vs.length + m, ?_, ?_, ?_⟩
    · rw [constructRanges, constructRange_eq hroom]
      change (constructRanges capacity (constructed + vs.length) vss >>= _) = _
      rw [hcolumns, ← Nat.add_assoc]
      rfl
    · rw [List.map_cons, content_numbered, hcontents]
    · rw [List.flatten_cons, List.map_append, number_numbered, hnumbers, List.range'_append_1]

theorem constructFills_ok (capacity constructed count : ℕ) (columns : List (List (Element V)))
    (kinds : List (Kind V))
    (hlength : columns.length = kinds.length)
    (h : ∀ column ∈ columns, column.length + count ≤ capacity) :
    ∃ columns' m, constructFills capacity constructed count columns kinds =
        .ok (columns', constructed + m) ∧
      columns'.map (List.map Element.content) = List.zipWith
        (fun vs kind => vs ++ List.replicate count kind.initial)
        (columns.map (List.map Element.content)) kinds ∧
      (columns'.flatten.map Element.number).Perm
        (columns.flatten.map Element.number ++ List.range' constructed m) := by
  induction columns generalizing constructed kinds with
  | nil =>
    obtain rfl := List.eq_nil_of_length_eq_zero hlength.symm
    exact ⟨[], 0, rfl, rfl, List.Perm.refl _⟩
  | cons column columns ih =>
    cases kinds with
    | nil => cases hlength
    | cons kind kinds =>
      have hreplicate := List.length_replicate (n := count) (a := kind.initial)
      have hroom : column.length + (List.replicate count kind.initial).length ≤ capacity := by
        rw [hreplicate]
        exact h column List.mem_cons_self
      obtain ⟨columns', m, hcolumns, hcontents, hnumbers⟩ := ih (constructed + count) kinds
        (Nat.succ.inj hlength) fun column hcolumn => h column (List.mem_cons_of_mem _ hcolumn)
      refine ⟨(column ++ numbered constructed (List.replicate count kind.initial)) :: columns',
        count + m, ?_, ?_, ?_⟩
      · rw [constructFills, constructFill_eq_constructRange, constructRange_eq hroom, hreplicate]
        change (constructFills capacity (constructed + count) count columns kinds >>= _) = _
        rw [hcolumns, ← Nat.add_assoc]
        rfl
      · rw [List.map_cons, List.map_append, content_numbered, hcontents]
        rfl
      · rw [List.flatten_cons, List.map_append, List.map_append, number_numbered, hreplicate,
          List.flatten_cons, List.map_append, ← List.range'_append_1]
        -- The new elements of the column come behind those of the other columns.
        have hmove := (List.Perm.append_left (List.range' constructed count) hnumbers).trans
          (List.perm_append_comm_assoc _ _ _)
        rw [List.append_assoc, List.append_assoc]
        exact List.Perm.append_left _ hmove

theorem destructRanges_eq (destroyed : List ℕ) (columns : List (List (Element V)))
    (h : ∀ column ∈ columns, column.length = count) :
    destructRanges count destroyed columns =
      .ok (destroyed ++ columns.flatten.map Element.number) := by
  induction columns generalizing destroyed with
  | nil => rw [destructRanges, List.flatten_nil, List.map_nil, List.append_nil]
  | cons column columns ih =>
    have hcolumn := h column List.mem_cons_self
    rw [destructRanges, ← hcolumn, destructRange_eq]
    change destructRanges column.length (destroyed ++ column.map Element.number) columns = _
    rw [hcolumn, ih _ fun column hmem => h column (List.mem_cons_of_mem _ hmem),
      List.flatten_cons, List.map_append, List.append_assoc]

/-! ## Blocks -/

variable {n acc bytes : ℕ} {u1 : ElementType} {us : List ElementType}

theorem offsetsImpl_head (n acc : ℕ) (u1 : ElementType) (us : List ElementType) :
    ∃ rest, (offsetsImpl n acc u1 us []).zip (u1 :: us) = (acc, u1) :: rest := by
  cases us with
  | nil => exact ⟨[], rfl⟩
  | cons u2 us => exact ⟨_, by rw [offsetsImpl_cons, List.zip_cons_cons]⟩

/-- Arrays with elements that lie in a block, and none of them where the first one starts, are as
large together as they should be. -/
theorem finish_lt_of_within (hn : 0 < n) (hbytes : bytes < 2 ^ 64)
    (hwithin : ∀ array ∈ (offsetsImpl n acc u1 us []).zip (u1 :: us),
      array.1 + array.2.size * n ≤ bytes)
    (hzero : ∀ array ∈ ((offsetsImpl n acc u1 us []).zip (u1 :: us)).tail, ¬ Holds n array 0) :
    SerialLayout.finish n (acc + u1.size * n) (us.map ElementType.size) < 2 ^ 64 := by
  induction us generalizing acc u1 with
  | nil =>
    have hfirst := hwithin (acc, u1) (List.mem_singleton.mpr rfl)
    exact hfirst.trans_lt hbytes
  | cons u2 us ih =>
    rw [offsetsImpl_cons, List.zip_cons_cons] at hwithin hzero
    rw [List.tail_cons] at hzero
    have hend : acc + u1.size * n < 2 ^ 64 := (hwithin _ List.mem_cons_self).trans_lt hbytes
    have hadvance : advance n acc u1 = acc + u1.size * n := Nat.mod_eq_of_lt hend
    obtain ⟨rest, hrest⟩ := offsetsImpl_head n (alignUpwards (advance n acc u1) u2.size) u2 us
    have hmem : (alignUpwards (advance n acc u1) u2.size, u2) ∈
        (offsetsImpl n (alignUpwards (advance n acc u1) u2.size) u2 us []).zip (u2 :: us) := by
      rw [hrest]
      exact List.mem_cons_self
    have hround : acc + u1.size * n + u2.size ≤ 2 ^ 64 := by
      by_contra hwraps
      -- A rounding that wraps gives the start of the block.
      have hstart : alignUpwards (advance n acc u1) u2.size = 0 := by
        rw [hadvance]
        exact alignUpwards_wraps (Nat.lt_of_not_le hwraps) hend
      have hnot := hzero _ hmem
      rw [hstart] at hnot
      refine hnot ⟨Nat.le_refl 0, ?_⟩
      rw [Nat.zero_add]
      exact Nat.mul_pos u2.pos hn
    have hstart : alignUpwards (advance n acc u1) u2.size =
        SerialLayout.roundUp (acc + u1.size * n) u2.size := by
      rw [hadvance, alignUpwards_eq hround]
    rw [hstart] at hwithin hzero
    exact ih (fun array harray => hwithin array (List.mem_cons_of_mem _ harray))
      fun array harray => hzero array (List.mem_of_mem_tail harray)

/-- Arrays with elements are laid out as they should be exactly if their bytes can be counted. -/
theorem laidOut_iff_totalSize (hn : 0 < n) (u1 : ElementType) (us : List ElementType) :
    LaidOut 0 n u1 us ↔ totalSize 0 n (u1 :: us) < 2 ^ 64 := by
  refine ⟨fun h => ?_, fun h => (laidOut_iff 0 n u1 us h).1.mpr (fits_of_total hn h)⟩
  have hbytes : AggregationLayout.sizeOf 0 n u1 us < 2 ^ 64 := Nat.mod_lt _ (by decide)
  obtain ⟨rest, hrest⟩ := offsetsImpl_head n 0 u1 us
  have hplaced : placed 0 n u1 us = (offsetsImpl n 0 u1 us []).zip (u1 :: us) := by
    rw [placed, offsets, alignUpwards_zero]
  have hapart := h.apart
  rw [hplaced, hrest, List.pairwise_cons] at hapart
  have hfinish : SerialLayout.finish n (0 + u1.size * n) (us.map ElementType.size) < 2 ^ 64 :=
    finish_lt_of_within hn hbytes (fun array harray => h.within array (by rwa [hplaced])) (fun array harray hholds => by
      rw [hrest, List.tail_cons] at harray
      refine hapart.1 array harray 0 ⟨⟨Nat.le_refl 0, ?_⟩, hholds⟩
      rw [Nat.zero_add]
      exact Nat.mul_pos u1.pos hn)
  rwa [totalSize, List.map_cons, SerialLayout.finish, SerialLayout.roundUp_zero]

/-! ## Arrays -/

variable {kind : Kind V} {kinds : List (Kind V)} {s : State V} {memory : Bool}

theorem placed_iff (hn : 0 < n) :
    Placed (kind :: kinds) n ↔ totalBytes (kind :: kinds) n < 2 ^ 64 :=
  laidOut_iff_totalSize hn _ _

theorem full_columns {contents : List (List V)} {columns : List (List (Element V))}
    (hcontents : columns.map (List.map Element.content) = contents)
    (hfull : ∀ vs ∈ contents, vs.length = n) : ∀ column ∈ columns, column.length = n := by
  intro column hcolumn
  rw [← List.length_map Element.content]
  refine hfull _ ?_
  rw [← hcontents]
  exact List.mem_map_of_mem hcolumn

/-- What is constructed is as it should be, if the bytes of its block can be counted. -/
theorem valid_create (kind : Kind V) (kinds : List (Kind V)) (memory : Bool)
    (hn : n = 0 ∨ totalBytes (kind :: kinds) n < 2 ^ 64) :
    ∃ s, create (kind :: kinds) memory n = .ok s ∧ Valid (kind :: kinds) s := by
  have hempty : ∀ column ∈ (kind :: kinds).map fun _ => ([] : List (Element V)), column = [] := by
    intro column hcolumn
    obtain ⟨-, -, rfl⟩ := List.mem_map.mp hcolumn
    rfl
  have hflatten : ((kind :: kinds).map fun _ => ([] : List (Element V))).flatten = [] :=
    List.flatten_eq_nil_iff.mpr hempty
  cases memory with
  | false =>
    refine ⟨⟨false, 0, _, 0, []⟩, rfl, List.length_map _, fun column hcolumn => ?_, fun _ => rfl,
      fun hpos => absurd hpos (Nat.lt_irrefl 0), ?_⟩
    · rw [hempty column hcolumn]
      rfl
    · rw [hflatten]
      exact List.Perm.refl []
  | true =>
    obtain ⟨columns, m, hcolumns, hcontents, hnumbers⟩ := constructFills_ok n 0 n
      ((kind :: kinds).map fun _ => ([] : List (Element V))) (kind :: kinds)
      (List.length_map _) fun column hcolumn => by
        rw [hempty column hcolumn, List.length_nil, Nat.zero_add]
    refine ⟨⟨true, n, columns, 0 + m, []⟩, ?_, ?_, ?_, nofun, fun hpos => ?_, ?_⟩
    · rw [create]
      simp only [if_true, hcolumns]
      rfl
    · have hlength := congrArg List.length hcontents
      rwa [List.length_map, List.length_zipWith, List.length_map, List.length_map,
        min_self] at hlength
    · refine full_columns hcontents fun vs hvs => ?_
      rw [← List.map_uncurry_zip_eq_zipWith] at hvs
      obtain ⟨⟨ws, k⟩, hmem, rfl⟩ := List.mem_map.mp hvs
      obtain ⟨column, hcolumn, rfl⟩ := List.mem_map.mp (List.of_mem_zip hmem).1
      rw [Function.uncurry_apply_pair, hempty column hcolumn, List.length_append,
        List.length_replicate, List.map_nil, List.length_nil, Nat.zero_add]
    · exact (placed_iff hpos).mpr (hn.resolve_left hpos.ne')
    · rw [hflatten, List.map_nil, List.nil_append] at hnumbers
      rwa [List.nil_append, Nat.zero_add, List.range_eq_range']

/-- What is in the columns is destructed. -/
theorem Valid.purge (h : Valid kinds s) :
    purge s = .ok (s.destroyed ++ s.columns.flatten.map Element.number) := by
  rw [ArrayResize.purge]
  split
  next => exact destructRanges_eq _ _ h.full
  next hbad =>
    have hempty : s.columns.flatten = [] := by
      rw [List.flatten_eq_nil_iff]
      intro column hcolumn
      refine List.eq_nil_of_length_eq_zero ?_
      rw [h.full column hcolumn, h.bad (Bool.not_eq_true _ ▸ hbad)]
    rw [hempty, List.map_nil, List.append_nil]

/-- Columns that do not shrink get more elements. -/
theorem resized_eq (contents : List (List V)) (kinds : List (Kind V))
    (hfull : ∀ vs ∈ contents, vs.length = capacity) (hle : capacity ≤ n) :
    resized kinds n contents = List.zipWith
      (fun vs kind => vs ++ List.replicate (n - capacity) kind.initial) contents kinds := by
  induction contents generalizing kinds with
  | nil => rfl
  | cons vs contents ih =>
    cases kinds with
    | nil => rfl
    | cons kind kinds =>
      have hvs := hfull vs List.mem_cons_self
      have hrest := ih kinds fun vs hmem => hfull vs (List.mem_cons_of_mem _ hmem)
      rw [resized] at hrest ⊢
      rw [List.zipWith_cons_cons, List.zipWith_cons_cons, hrest, hvs,
        List.take_of_length_le (hvs.trans_le hle)]

theorem resized_same (contents : List (List V)) (kinds : List (Kind V))
    (hlength : contents.length = kinds.length) (hfull : ∀ vs ∈ contents, vs.length = capacity) :
    resized kinds capacity contents = contents := by
  rw [resized_eq contents kinds hfull (Nat.le_refl capacity), Nat.sub_self]
  clear hfull
  induction contents generalizing kinds with
  | nil => rfl
  | cons vs contents ih =>
    cases kinds with
    | nil => cases hlength
    | cons kind kinds =>
      rw [List.zipWith_cons_cons, List.replicate_zero, List.append_nil,
        ih kinds (Nat.succ.inj hlength)]

theorem Valid.length_contents (h : Valid kinds s) : s.contents.length = kinds.length := by
  rw [State.contents, List.length_map, h.complete]

theorem Valid.full_contents (h : Valid kinds s) : ∀ vs ∈ s.contents, vs.length = s.capacity := by
  intro vs hvs
  obtain ⟨column, hcolumn, rfl⟩ := List.mem_map.mp hvs
  rw [List.length_map, h.full column hcolumn]

/-- A call that leaves an array as it is. -/
theorem Valid.meets_same {b : Bool} (h : Valid kinds s) (hsame : b = true → n = s.capacity) :
    Meets kinds n s (.ok (b, s)) := by
  refine ⟨b, s, rfl, h, fun hb => ⟨(hsame hb).symm, ?_⟩, fun _ => rfl, _, h.purge, h.once⟩
  rw [hsame hb, resized_same _ _ h.length_contents h.full_contents]

/-- The elements move to a block with room for them. -/
theorem Valid.move (h : Valid kinds s) (hn : n < 2 ^ 64) (hle : s.capacity ≤ n) :
    ∃ columns m, move kinds n s = .ok (columns, s.constructed + m) ∧
      columns.map (List.map Element.content) = resized kinds n s.contents ∧
      (columns.flatten.map Element.number).Perm (List.range' s.constructed m) := by
  obtain ⟨columns, m, hcolumns, hcontents, hnumbers⟩ :=
    constructRanges_ok s.constructed s.contents fun vs hvs =>
      (h.full_contents vs hvs).trans_le hle
  have hcount : (n + 2 ^ 64 - s.capacity) % 2 ^ 64 = n - s.capacity := by omega
  have hlength : columns.length = kinds.length := by
    rw [← h.length_contents, ← hcontents, List.length_map]
  have hroom : ∀ column ∈ columns, column.length + (n - s.capacity) ≤ n := by
    intro column hcolumn
    have hmem : column.map Element.content ∈ s.contents := by
      rw [← hcontents]
      exact List.mem_map_of_mem hcolumn
    have hfull := h.full_contents _ hmem
    rw [List.length_map] at hfull
    omega
  obtain ⟨columns', m', hcolumns', hcontents', hnumbers'⟩ :=
    constructFills_ok n (s.constructed + m) (n - s.capacity) columns kinds hlength hroom
  refine ⟨columns', m + m', ?_, ?_, ?_⟩
  · rw [ArrayResize.move, hcolumns]
    change constructFills n (s.constructed + m) ((n + 2 ^ 64 - s.capacity) % 2 ^ 64) columns kinds = _
    rw [hcount, hcolumns', Nat.add_assoc]
  · rw [hcontents', hcontents, resized_eq _ _ h.full_contents hle]
  · rwa [hnumbers, List.range'_append_1] at hnumbers'

theorem length_resized {contents : List (List V)} {vs : List V} (hvs : vs ∈ resized kinds n contents) :
    vs.length = n := by
  rw [resized, ← List.map_uncurry_zip_eq_zipWith] at hvs
  obtain ⟨⟨ws, kind⟩, -, rfl⟩ := List.mem_map.mp hvs
  rw [Function.uncurry_apply_pair, List.length_append, List.length_take, List.length_replicate]
  omega

theorem tryReallocate_of_memory (kinds : List (Kind V)) (n : ℕ) (s : State V) :
    tryReallocate kinds true n s = (do
      let (columns, constructed) ← ArrayResize.move kinds n s
      let destroyed ← ArrayResize.purge s
      return (true, ⟨true, n, columns, constructed, destroyed⟩)) := by
  rw [tryReallocate, reserveExact]
  simp only [lt_irrefl, if_false, Bool.true_eq_false]

/-- What becomes of an array that is given a block that is not smaller. -/
theorem Valid.tryReallocate (h : Valid kinds s) (hn : n < 2 ^ 64) (hle : s.capacity ≤ n) :
    ∃ t, tryReallocate kinds true n s = .ok (true, t) ∧ t.capacity = n ∧
      t.contents = resized kinds n s.contents ∧ (Valid kinds t ↔ (0 < n → Placed kinds n)) := by
  obtain ⟨columns, m, hmove, hcontents, hnumbers⟩ := h.move hn hle
  let t : State V := ⟨true, n, columns, s.constructed + m,
    s.destroyed ++ s.columns.flatten.map Element.number⟩
  refine ⟨t, ?_, rfl, hcontents, fun ht => ht.placed, fun hplaced => ⟨?_, ?_, nofun, hplaced, ?_⟩⟩
  · rw [tryReallocate_of_memory, hmove, h.purge]
    rfl
  · have hlength := congrArg List.length hcontents
    rwa [List.length_map, resized, List.length_zipWith, h.length_contents, min_self] at hlength
  · exact full_columns hcontents fun vs hvs => length_resized hvs
  · change ((s.destroyed ++ s.columns.flatten.map Element.number) ++ _).Perm
      (List.range (s.constructed + m))
    have hrange : List.range (s.constructed + m) =
        List.range s.constructed ++ List.range' s.constructed m := by
      rw [List.range_eq_range', List.range_eq_range', ← List.range'_append_1, Nat.zero_add]
    rw [hrange]
    exact h.once.append hnumbers

/-- A block that is smaller is overrun. -/
theorem Valid.move_outside (h : Valid (kind :: kinds) s) (hlt : n < s.capacity) :
    ArrayResize.move (kind :: kinds) n s = .error .outside := by
  have hpos : 0 < s.columns.length := by
    rw [h.complete]
    exact Nat.succ_pos kinds.length
  obtain ⟨column, columns, hcolumns⟩ := List.exists_cons_of_length_pos hpos
  have hcolumn : (column.map Element.content).length = s.capacity := by
    rw [List.length_map, h.full column (by rw [hcolumns]; exact List.mem_cons_self)]
  have hover : n < ([] : List (Element V)).length + (column.map Element.content).length := by
    rwa [hcolumn, List.length_nil, Nat.zero_add]
  have hrange := (constructRange_outside s.constructed [] (column.map Element.content)
    hover).resolve_right (Nat.not_lt_zero n)
  rw [ArrayResize.move, State.contents, hcolumns, List.map_cons, constructRanges, hrange]
  rfl

/-- A call with memory for a block that is not smaller meets what it should exactly if the bytes of
the block can be counted. -/
theorem Valid.meets_iff (h : Valid (kind :: kinds) s) (hn : n < 2 ^ 64) (hle : s.capacity ≤ n) :
    Meets (kind :: kinds) n s (ArrayResize.tryReallocate (kind :: kinds) true n s) ↔
      (n = 0 ∨ totalBytes (kind :: kinds) n < 2 ^ 64) := by
  obtain ⟨t, ht, hcapacity, hcontents, hvalid⟩ := h.tryReallocate hn hle
  have hplaced : (0 < n → Placed (kind :: kinds) n) ↔
      (n = 0 ∨ totalBytes (kind :: kinds) n < 2 ^ 64) := by
    rcases Nat.eq_zero_or_pos n with rfl | hpos
    · exact iff_of_true (fun hpos => absurd hpos (Nat.lt_irrefl 0)) (.inl rfl)
    · rw [placed_iff hpos]
      exact ⟨fun himp => .inr (himp hpos), fun hor _ => hor.resolve_left hpos.ne'⟩
  rw [← hplaced, ← hvalid, ht]
  constructor
  · rintro ⟨b, t', ⟨⟩, hvalid', -⟩
    exact hvalid'
  · exact fun hvalid' => ⟨true, t, rfl, hvalid', fun _ => ⟨hcapacity, hcontents⟩, nofun, _,
      hvalid'.purge, hvalid'.once⟩

/-- A call does what it should exactly if there is no memory for it, or the array does not shrink
and the number of bytes of the new block can be counted. -/
theorem right_iff (h : Valid (kind :: kinds) s) (memory : Bool) (hn : n < 2 ^ 64) :
    Right (kind :: kinds) memory n s ↔ Fine (kind :: kinds) memory n s := by
  cases memory with
  | false =>
    have hfails : ArrayResize.tryReallocate (kind :: kinds) false n s = .ok (false, s) := by
      rw [ArrayResize.tryReallocate]
      simp only [if_true, ite_self]
    refine iff_of_true ⟨?_, ?_⟩ nofun
    · rw [resize, hfails]
      exact h.meets_same nofun
    · rw [tryReserve]
      split
      next hle => exact h.meets_same fun _ => Nat.max_eq_right hle
      next => rw [hfails]; exact h.meets_same nofun
  | true =>
    by_cases hle : s.capacity ≤ n
    · have hresize := h.meets_iff hn hle
      constructor
      · exact fun hright _ => ⟨hle, hresize.mp hright.resizes⟩
      · intro hfine
        have hmeets := hresize.mpr (hfine rfl).2
        refine ⟨hmeets, ?_⟩
        rw [tryReserve]
        split
        next hge => exact h.meets_same fun _ => Nat.max_eq_right hge
        next => rwa [Nat.max_eq_left hle]
    · refine iff_of_false ?_ fun hfine => hle (hfine rfl).1
      rintro ⟨⟨b, t, ht, -⟩, -⟩
      rw [resize, tryReallocate_of_memory, h.move_outside (Nat.lt_of_not_le hle)] at ht
      cases ht

/-- An array of two elements. -/
def two : State ℕ := ⟨true, 2, [[⟨0, 5⟩, ⟨1, 7⟩]], 2, []⟩

/-- Elements of four bytes. -/
def four : Kind ℕ := ⟨⟨4, 4, by decide, by decide, by decide⟩, 0⟩

theorem valid_two : Valid [four] two where
  complete := rfl
  full := by decide
  bad := nofun
  placed := fun hpos => (placed_iff hpos).mpr (by decide)
  once := List.Perm.refl _

theorem right_iff_two : Right [four] true 3 two ↔ Fine [four] true 3 two :=
  right_iff valid_two true (by decide)

/-- An array that shrinks constructs an element behind its new block. -/
theorem shrink_outside : Valid [four] two ∧ resize [four] true 1 two = .error .outside ∧
    ¬ Right [four] true 1 two := by
  refine ⟨valid_two, rfl, ?_⟩
  rintro ⟨⟨b, t, ht, -⟩, -⟩
  cases ht

end Fimbulwinter.ArrayResize
