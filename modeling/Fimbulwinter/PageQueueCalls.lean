import Fimbulwinter.HeapVector
import Fimbulwinter.PageQueue

/-! # `PageQueue` used by one thread

The calls of one thread run to their ends one after another. Pages double their
capacities; the calls make a first in, first out queue unless the first page has been
opened without any slot. -/
namespace Fimbulwinter.PageQueue

/-- Why a call does not return. -/
inductive Failure
  | misuse (e : Misuse)
  /-- A loop waits for a change that no other thread makes. -/
  | endless
  deriving DecidableEq, Repr

/-- The pages from the oldest to the newest one, and what calls have pushed and popped. -/
structure Calls (T : Type*) where
  pages : List (Ring Unit T)
  /-- The items of the pushes that have returned true. -/
  pushed : List T
  /-- The items that pops have returned. -/
  popped : List T

variable {T : Type*}

/-- The default constructor, and the one that opens a page. -/
def Calls.initial (reserve : ℕ → ℕ) : Option ℕ → Calls T
  | none => ⟨[], [], []⟩
  | some capacity => ⟨[.empty (reserve capacity)], [], []⟩

/-- `try_push`, with the capacities that can be allocated during the call, and `try_pop`. -/
inductive Operation (T : Type*)
  | push (item : T) (allocate : ℕ → Bool)
  | pop

inductive Answer (T : Type*)
  | pushed
  /-- A push returns false, because a page of this capacity cannot be allocated. -/
  | outOfMemory (capacity : ℕ)
  | popped (item : T)
  /-- A pop returns false. -/
  | empty
  deriving DecidableEq, Repr

/-- `checkin_write_slot`; there is no other thread that could change the index. -/
def checkinWriteSlot (r : Ring Unit T) (slot next : ℕ) : Except Failure (Ring Unit T) :=
  if r.readendi = slot then .ok (r.publish next) else .error .endless

/-- `try_emplace` in a page, unless it is full. -/
def emplace (r : Ring Unit T) (item : T) : Except Failure (Option (Ring Unit T)) :=
  let slot := r.writei
  let next := wrapReset (slot + 1) r.capacity
  if r.readi = next then .ok none -- full
  else
    match r.storage.construct slot item with
    | .error e => .error (.misuse e)
    | .ok storage =>
      (checkinWriteSlot { r.reserve () item next with storage := storage } slot next).map some

/-- The loop of `try_emplace`, which opens pages until one has room. -/
def emplaceLoop (reserve : ℕ → ℕ) (item : T) (allocate : ℕ → Bool) :
    ℕ → List (Ring Unit T) → Except Failure (List (Ring Unit T) × Answer T)
  | 0, _ => .error .endless
  | fuel + 1, pages =>
    let openPage (capacity : ℕ) : Except Failure (List (Ring Unit T) × Answer T) :=
      let newCapacity := reserve (capacity + 1)
      if allocate newCapacity then
        emplaceLoop reserve item allocate fuel (pages ++ [.empty newCapacity])
      else .ok (pages, .outOfMemory newCapacity)
    match pages.getLast? with
    | none => openPage 0
    | some r =>
      match emplace r item with
      | .error e => .error e
      | .ok (some r) => .ok (pages.dropLast ++ [r], .pushed)
      | .ok none => openPage r.capacity

/-- A page without slots, one with a single slot that stays free, and one that has room:
a push opens no more than these. -/
def pageFuel : ℕ := 4

def Calls.tryEmplace (reserve : ℕ → ℕ) (q : Calls T) (item : T) (allocate : ℕ → Bool) :
    Except Failure (Calls T × Answer T) :=
  match emplaceLoop reserve item allocate pageFuel q.pages with
  | .error e => .error e
  | .ok (pages, .pushed) => .ok ({ q with pages := pages, pushed := q.pushed ++ [item] }, .pushed)
  | .ok (pages, answer) => .ok ({ q with pages := pages }, answer)

/-- `try_pop` in a page, unless it is empty. -/
def popFirst (r : Ring Unit T) : Except Failure (Option (Ring Unit T × T)) :=
  let slot := r.readi
  if slot = r.readendi then .ok none
  else
    match r.storage.read slot with
    | .error e => .error (.misuse e)
    | .ok item =>
      match r.storage.destruct slot with
      | .error e => .error (.misuse e)
      | .ok storage =>
        let r := { r with storage := storage }
        .ok (some (r.take (wrapReset (slot + 1) r.capacity), item))

/-- The oldest page is released when it is drained and not the only one. -/
def releaseOldest : List (Ring Unit T) → List (Ring Unit T)
  | r :: r' :: rest => if r.readi = r.writei then r' :: rest else r :: r' :: rest
  | pages => pages

def Calls.tryPop (q : Calls T) : Except Failure (Calls T × Answer T) :=
  match releaseOldest q.pages with
  | [] => .ok (q, .empty)
  | r :: rest =>
    match popFirst r with
    | .error e => .error e
    | .ok none => .ok ({ q with pages := r :: rest }, .empty)
    | .ok (some (r, item)) =>
      .ok ({ q with pages := r :: rest, popped := q.popped ++ [item] }, .popped item)

def Calls.call (reserve : ℕ → ℕ) (q : Calls T) :
    Operation T → Except Failure (Calls T × Answer T)
  | .push item allocate => q.tryEmplace reserve item allocate
  | .pop => q.tryPop

/-- The answer of a first in, first out queue without bounds: only memory can run out,
and a pop returns the item of the push with its number, if there has been such a push. -/
def Calls.Admits (q : Calls T) : Operation T → Answer T → Prop
  | .push _ _, .pushed => True
  | .push _ allocate, .outOfMemory capacity => allocate capacity = false
  | .pop, .popped item => q.pushed[q.popped.length]? = some item
  | .pop, .empty => q.popped.length = q.pushed.length
  | _, _ => False

/-- The allocator has less than half of the address space. -/
def Limited : Operation T → Prop
  | .push _ allocate => ∀ capacity, allocate capacity = true → capacity < 2 ^ 63
  | .pop => True

def Calls.step (reserve : ℕ → ℕ) (q : Calls T) (op : Operation T) : Except Failure (Calls T) :=
  (q.call reserve op).map Prod.fst

/-! ## One page -/

/-- Between two calls nothing is under way in a page. -/
def Rests (r : Ring Unit T) : Prop := r.Valid (fun _ => none) .idle

/-- The items that are left in a page. -/
def left (r : Ring Unit T) : List T := (r.reserved.drop r.taken).map Prod.snd

theorem left_eq_nil_iff (r : Ring Unit T) : left r = [] ↔ r.reserved.length ≤ r.taken := by
  rw [left, List.map_eq_nil_iff, List.drop_eq_nil_iff]

/-- An item finds its slot behind the others unless the page is full. -/
theorem Rests.emplace {r : Ring Unit T} (h : Rests r) (item : T) :
    (r.readi = wrapReset (r.writei + 1) r.capacity ∧ emplace r item = .ok none) ∨
      ∃ r', emplace r item = .ok (some r') ∧ Rests r' ∧ r'.capacity = r.capacity ∧
        left r' = left r ++ [item] := by
  by_cases hfull : r.readi = wrapReset (r.writei + 1) r.capacity
  · exact .inl ⟨hfull, if_pos hfull⟩
  · have hreserve := Ring.Valid.reserve h (p := ()) rfl item rfl hfull
    obtain ⟨storage, hstorage, hconstruct⟩ := hreserve.construct (Function.update_self ..)
    have hturn : r.readendi = r.writei := by
      have hpublished := h.published_eq fun _ => rfl
      rw [h.readendi, h.writei, hpublished]
    obtain ⟨-, hpublish⟩ := hconstruct.publish (Function.update_self ..) hturn
    have hnone : ∀ p : Unit, Function.update (Function.update (Function.update (fun _ => none) ()
        (some (.construct item r.writei (wrapReset (r.writei + 1) r.capacity) r.reserved.length)))
        () (some (.checkin item r.writei (wrapReset (r.writei + 1) r.capacity) r.reserved.length)))
        () none p = (none : Option (Ticket T)) := fun _ => Function.update_self ..
    rw [funext hnone] at hpublish
    refine .inr ⟨_, ?_, hpublish, rfl, ?_⟩
    · rw [PageQueue.emplace, if_neg hfull, show r.storage.construct r.writei item = .ok storage
        from hstorage]
      simp only [checkinWriteSlot, Ring.reserve, hturn, if_true]
      rfl
    · have hle : r.taken ≤ r.reserved.length := h.taken_le.trans h.published_le
      change ((r.reserved ++ [((), item)]).drop r.taken).map Prod.snd = left r ++ [item]
      rw [List.drop_append_of_le_length hle, List.map_append]
      rfl

/-- A page of two slots or more has room when it is new. -/
theorem emplace_empty {capacity : ℕ} (h : 1 < capacity) (item : T) :
    ∃ r', emplace (.empty capacity) item = .ok (some r') ∧ Rests r' ∧ r'.capacity = capacity ∧
      left r' = [item] := by
  rcases Rests.emplace (Ring.empty_valid capacity) item with ⟨hfull, -⟩ | hroom
  · have hnext : wrapReset (0 + 1) capacity = 1 := if_pos h
    exact absurd (hfull.trans hnext) Nat.zero_ne_one
  · exact hroom

/-- The first item that is left is popped. -/
theorem Rests.popFirst {r : Ring Unit T} (h : Rests r) :
    (left r = [] ∧ popFirst r = .ok none) ∨
      ∃ r' item, popFirst r = .ok (some (r', item)) ∧ Rests r' ∧ r'.capacity = r.capacity ∧
        left r = item :: left r' := by
  have hpublished := h.published_eq fun _ => rfl
  have hbarrier := Ring.Valid.barrier h.beginPop
  split_ifs at hbarrier with hempty
  · refine .inl ⟨?_, if_pos hempty⟩
    rw [left_eq_nil_iff, hbarrier.1, hpublished]
  · obtain ⟨item, hread, hmove⟩ := hbarrier.move
    obtain ⟨storage, hdestruct, hdestroy⟩ := hmove.destroy
    obtain ⟨hitem, htake⟩ := hdestroy.take
    refine .inr ⟨_, item, ?_, htake, rfl, ?_⟩
    · rw [PageQueue.popFirst, if_neg hempty]
      simp only [hread, hdestruct]
    · obtain ⟨entry, hentry, hsnd⟩ := Option.map_eq_some_iff.mp hitem
      obtain ⟨hlt, hget⟩ := List.getElem?_eq_some_iff.mp hentry
      change (r.reserved.drop r.taken).map Prod.snd = item :: (r.reserved.drop (r.taken + 1)).map _
      rw [List.drop_eq_getElem_cons hlt, List.map_cons, hget, hsnd]

/-! ## The pages together -/

structure Usable (r : Ring Unit T) : Prop where
  rests : Rests r
  pos : 0 < r.capacity
  limited : r.capacity < 2 ^ 63

/-- Every page behind the oldest one has items. -/
structure Sound (pages : List (Ring Unit T)) : Prop where
  usable : ∀ r ∈ pages, Usable r
  later : ∀ r ∈ pages.tail, left r ≠ []

def contents (pages : List (Ring Unit T)) : List T := pages.flatMap left

theorem contents_concat (pages : List (Ring Unit T)) (r : Ring Unit T) :
    contents (pages ++ [r]) = contents pages ++ left r := by
  simp [contents]

theorem Sound.nil : Sound ([] : List (Ring Unit T)) :=
  ⟨fun _ hr => absurd hr List.not_mem_nil, fun _ hr => absurd hr List.not_mem_nil⟩

theorem Sound.singleton {r : Ring Unit T} (h : Usable r) : Sound [r] :=
  ⟨fun _ hr => List.mem_singleton.mp hr ▸ h, fun _ hr => absurd hr List.not_mem_nil⟩

theorem Sound.concat {pages : List (Ring Unit T)} {r : Ring Unit T} (h : Sound pages)
    (hr : Usable r) (hleft : left r ≠ []) : Sound (pages ++ [r]) := by
  constructor
  · intro x hx
    rcases List.mem_append.mp hx with hx | hx
    · exact h.usable x hx
    · exact List.mem_singleton.mp hx ▸ hr
  · intro x hx
    cases pages with
    | nil => exact absurd hx List.not_mem_nil
    | cons y pages =>
      rcases List.mem_append.mp hx with hx | hx
      · exact h.later x hx
      · exact List.mem_singleton.mp hx ▸ hleft

theorem Sound.init {pages : List (Ring Unit T)} {r : Ring Unit T} (h : Sound (pages ++ [r])) :
    Sound pages := by
  refine ⟨fun x hx => h.usable x (List.mem_append_left _ hx), fun x hx => h.later x ?_⟩
  cases pages with
  | nil => exact absurd hx List.not_mem_nil
  | cons y pages => exact List.mem_append_left _ hx

/-- The newest page can be exchanged for one with items. -/
theorem Sound.setLast {pages : List (Ring Unit T)} {r r' : Ring Unit T}
    (h : Sound (pages ++ [r])) (hr : Usable r') (hleft : left r' ≠ []) : Sound (pages ++ [r']) :=
  h.init.concat hr hleft

/-- The head of the pages can be exchanged for any page. -/
theorem Sound.setHead {pages : List (Ring Unit T)} {r r' : Ring Unit T} (h : Sound (r :: pages))
    (hr : Usable r') : Sound (r' :: pages) := by
  refine ⟨fun x hx => ?_, h.later⟩
  rcases List.mem_cons.mp hx with rfl | hx
  · exact hr
  · exact h.usable x (List.mem_cons_of_mem _ hx)

/-- What `try_emplace` does: the item comes last, or a page could not be allocated. -/
def Emplaces (item : T) (allocate : ℕ → Bool) (pages : List (Ring Unit T))
    (result : Except Failure (List (Ring Unit T) × Answer T)) : Prop :=
  ∃ pages', Sound pages' ∧
    ((result = .ok (pages', .pushed) ∧ contents pages' = contents pages ++ [item]) ∨
      ∃ capacity, result = .ok (pages', .outOfMemory capacity) ∧ allocate capacity = false ∧
        contents pages' = contents pages)

section Strategy

variable {reserve : ℕ → ℕ} {allocate : ℕ → Bool}

/-- A page that is opened behind another one has room for the item. -/
theorem Sound.emplaceLoop {pages : List (Ring Unit T)} {r : Ring Unit T}
    (h : Sound (pages ++ [r])) (hreserve : ∀ n, 0 < n → n ≤ 2 ^ 63 → n ≤ reserve n) (item : T)
    (hlimited : ∀ capacity, allocate capacity = true → capacity < 2 ^ 63) (fuel : ℕ) :
    Emplaces item allocate (pages ++ [r])
      (emplaceLoop reserve item allocate (fuel + 2) (pages ++ [r])) := by
  have hr := h.usable r (List.mem_append_right _ (List.mem_singleton_self r))
  rw [PageQueue.emplaceLoop]
  simp only [List.getLast?_concat]
  rcases hr.rests.emplace item with ⟨-, hfull⟩ | ⟨r', hroom, hrests, hcapacity, hleft⟩
  · simp only [hfull]
    by_cases hallocate : allocate (reserve (r.capacity + 1)) = true
    · have hsize : 1 < reserve (r.capacity + 1) :=
        Nat.lt_of_lt_of_le (Nat.succ_lt_succ hr.pos)
          (hreserve _ (Nat.succ_pos _) (Nat.succ_le_of_lt hr.limited))
      obtain ⟨r', hroom, hrests, hcapacity, hleft⟩ := emplace_empty hsize item
      have hpos : 0 < r'.capacity := hcapacity ▸ Nat.zero_lt_of_lt hsize
      have hr' : Usable r' := ⟨hrests, hpos, hcapacity ▸ hlimited _ hallocate⟩
      refine ⟨pages ++ [r] ++ [r'], h.concat hr' (by rw [hleft]; exact List.cons_ne_nil _ _),
        .inl ⟨?_, ?_⟩⟩
      · simp only [hallocate, if_true]
        rw [PageQueue.emplaceLoop]
        simp only [List.getLast?_concat, hroom, List.dropLast_concat]
      · rw [contents_concat _ r', hleft]
    · rw [if_neg hallocate]
      exact ⟨_, h, .inr ⟨_, rfl, Bool.eq_false_of_not_eq_true hallocate, rfl⟩⟩
  · have hr' : Usable r' := ⟨hrests, hcapacity ▸ hr.pos, hcapacity ▸ hr.limited⟩
    refine ⟨pages ++ [r'], h.setLast hr' ?_, .inl ⟨?_, ?_⟩⟩
    · rw [hleft]
      exact List.append_ne_nil_of_right_ne_nil _ (List.cons_ne_nil _ _)
    · simp only [hroom, List.dropLast_concat]
    · rw [contents_concat, contents_concat, hleft, List.append_assoc]

/-- The first page that is opened may have a single slot, which stays free. -/
theorem emplaceLoop_nil (hreserve : ∀ n, 0 < n → n ≤ 2 ^ 63 → n ≤ reserve n) (item : T)
    (hlimited : ∀ capacity, allocate capacity = true → capacity < 2 ^ 63) (fuel : ℕ) :
    Emplaces item allocate [] (emplaceLoop reserve item allocate (fuel + 3) []) := by
  rw [PageQueue.emplaceLoop]
  simp only [List.getLast?_nil]
  by_cases hallocate : allocate (reserve (0 + 1)) = true
  · have hpos : 0 < reserve (0 + 1) := hreserve _ Nat.one_pos (Nat.one_le_two_pow)
    have hempty : Sound ([] ++ [(.empty (reserve (0 + 1)) : Ring Unit T)]) :=
      .singleton ⟨Ring.empty_valid _, hpos, hlimited _ hallocate⟩
    rw [if_pos hallocate]
    exact hempty.emplaceLoop hreserve item hlimited fuel
  · rw [if_neg hallocate]
    exact ⟨[], .nil, .inr ⟨_, rfl, Bool.eq_false_of_not_eq_true hallocate, rfl⟩⟩

end Strategy

/-- A drained page is released only when the next one has items. -/
theorem Sound.releaseOldest {pages : List (Ring Unit T)} (h : Sound pages) :
    Sound (releaseOldest pages) ∧ contents (releaseOldest pages) = contents pages ∧
      ∀ r rest, releaseOldest pages = r :: rest → left r = [] → rest = [] := by
  match pages with
  | [] => exact ⟨h, rfl, fun r rest heq => nomatch heq⟩
  | [x] =>
    refine ⟨h, rfl, fun r rest heq _ => ?_⟩
    exact (List.cons.inj heq).2.symm
  | r :: r' :: rest =>
    have hr := h.usable r List.mem_cons_self
    have hlater := h.later r' List.mem_cons_self
    have hdrained : r.readi = r.writei ↔ left r = [] := by
      rw [left_eq_nil_iff]
      refine ⟨fun heq => (hr.rests.drained heq).ge, fun hle => ?_⟩
      have htaken := Nat.le_antisymm (hr.rests.taken_le.trans hr.rests.published_le) hle
      rw [hr.rests.readi, hr.rests.writei, htaken]
    by_cases heq : r.readi = r.writei
    · rw [PageQueue.releaseOldest, if_pos heq]
      refine ⟨⟨fun x hx => h.usable x (List.mem_cons_of_mem _ hx), fun x hx =>
        h.later x (List.mem_cons_of_mem _ hx)⟩, ?_, fun x rest' hx hempty => ?_⟩
      · simp [contents, hdrained.mp heq]
      · rw [← (List.cons.inj hx).1] at hempty
        exact absurd hempty hlater
    · rw [PageQueue.releaseOldest, if_neg heq]
      refine ⟨h, rfl, fun x rest' hx hempty => ?_⟩
      rw [← (List.cons.inj hx).1] at hempty
      exact absurd (hdrained.mpr hempty) heq

/-! ## Runs of calls -/

/-- The items that are left in the pages are those that have been pushed and not popped. -/
structure Calls.Valid (q : Calls T) : Prop where
  sound : Sound q.pages
  pushed : q.pushed = q.popped ++ contents q.pages

/-- A call returns, its answer is right, and the next call can be made. -/
def Calls.Answered (q : Calls T) (op : Operation T)
    (result : Except Failure (Calls T × Answer T)) : Prop :=
  ∃ q' answer, result = .ok (q', answer) ∧ q.Admits op answer ∧ q'.Valid

theorem Calls.Valid.initial {reserve : ℕ → ℕ} {capacity : Option ℕ}
    (hpos : ∀ c ∈ capacity, 0 < reserve c) (hlimited : ∀ c ∈ capacity, reserve c < 2 ^ 63) :
    (Calls.initial reserve capacity : Calls T).Valid := by
  cases capacity with
  | none => exact ⟨.nil, rfl⟩
  | some c =>
    have husable : Usable (.empty (reserve c) : Ring Unit T) :=
      ⟨Ring.empty_valid _, hpos c rfl, hlimited c rfl⟩
    exact ⟨.singleton husable, rfl⟩

theorem Calls.Valid.tryEmplace {q : Calls T} (h : q.Valid) {reserve : ℕ → ℕ}
    (hreserve : ∀ n, 0 < n → n ≤ 2 ^ 63 → n ≤ reserve n) (item : T) {allocate : ℕ → Bool}
    (hlimited : ∀ capacity, allocate capacity = true → capacity < 2 ^ 63) :
    q.Answered (.push item allocate) (q.tryEmplace reserve item allocate) := by
  have hloop : Emplaces item allocate q.pages
      (emplaceLoop reserve item allocate pageFuel q.pages) := by
    have hsound := h.sound
    rcases List.eq_nil_or_concat' q.pages with hnil | ⟨pages, r, hconcat⟩
    · rw [hnil]
      exact emplaceLoop_nil hreserve item hlimited 1
    · rw [hconcat] at hsound ⊢
      exact hsound.emplaceLoop hreserve item hlimited 2
  obtain ⟨pages, hsound, ⟨hresult, hcontents⟩ | ⟨capacity, hresult, hfails, hcontents⟩⟩ := hloop
  · refine ⟨{ q with pages := pages, pushed := q.pushed ++ [item] }, .pushed, ?_, trivial,
      hsound, ?_⟩
    · simp only [Calls.tryEmplace, hresult]
    · change q.pushed ++ [item] = q.popped ++ contents pages
      rw [hcontents, h.pushed, List.append_assoc]
  · refine ⟨{ q with pages := pages }, .outOfMemory capacity, ?_, hfails, hsound, ?_⟩
    · simp only [Calls.tryEmplace, hresult]
    · change q.pushed = q.popped ++ contents pages
      rw [hcontents, h.pushed]

theorem Calls.Valid.tryPop {q : Calls T} (h : q.Valid) : q.Answered .pop q.tryPop := by
  obtain ⟨hsound, hcontents, hlast⟩ := h.sound.releaseOldest
  have hpushed := h.pushed
  rw [← hcontents] at hpushed
  rw [Calls.tryPop]
  cases hpages : releaseOldest q.pages with
  | nil =>
    refine ⟨q, .empty, rfl, ?_, h⟩
    change q.popped.length = q.pushed.length
    rw [hpushed, hpages, contents, List.flatMap_nil, List.append_nil]
  | cons r rest =>
    rw [hpages] at hsound hpushed
    have hr := hsound.usable r List.mem_cons_self
    rcases hr.rests.popFirst with ⟨hleft, hpop⟩ | ⟨r', item, hpop, hrests, hcapacity, hleft⟩
    · refine ⟨{ q with pages := r :: rest }, .empty, by simp only [hpop], ?_, hsound, hpushed⟩
      change q.popped.length = q.pushed.length
      rw [hpushed, hlast r rest hpages hleft, contents, List.flatMap_singleton, hleft,
        List.append_nil]
    · have hr' : Usable r' := ⟨hrests, hcapacity ▸ hr.pos, hcapacity ▸ hr.limited⟩
      have hitem : q.pushed = q.popped ++ item :: contents (r' :: rest) := by
        rw [hpushed, contents, List.flatMap_cons, hleft]
        rfl
      refine ⟨{ q with pages := r' :: rest, popped := q.popped ++ [item] }, .popped item,
        by simp only [hpop], ?_, hsound.setHead hr', ?_⟩
      · change q.pushed[q.popped.length]? = some item
        rw [hitem, List.getElem?_append_right (Nat.le_refl _), Nat.sub_self]
        rfl
      · change q.pushed = q.popped ++ [item] ++ contents (r' :: rest)
        rw [hitem, List.append_assoc]
        rfl

theorem Calls.Valid.call {q : Calls T} (h : q.Valid) {reserve : ℕ → ℕ}
    (hreserve : ∀ n, 0 < n → n ≤ 2 ^ 63 → n ≤ reserve n) {op : Operation T} (hop : Limited op) :
    q.Answered op (q.call reserve op) := by
  cases op with
  | push item allocate => exact h.tryEmplace hreserve item hop
  | pop => exact h.tryPop

theorem Calls.Valid.reached {start q : Calls T} (h : start.Valid) {reserve : ℕ → ℕ}
    (hreserve : ∀ n, 0 < n → n ≤ 2 ^ 63 → n ≤ reserve n)
    (hq : Reached (Calls.step reserve) (fun _ op => Limited op) start q) : q.Valid := by
  refine hq.invariant h fun hvalid hop hstep => ?_
  obtain ⟨q', answer, hcall, -, hvalid'⟩ := hvalid.call hreserve hop
  rw [Calls.step, hcall] at hstep
  exact Except.ok.inj hstep ▸ hvalid'

/-- A queue that one thread uses is first in, first out: every call returns what it should. -/
def IsFifo (T : Type*) (capacity : Option ℕ) : Prop :=
  ∀ q : Calls T, Reached (Calls.step clp2) (fun _ op => Limited op) (.initial clp2 capacity) q →
    ∀ op, Limited op → ∃ q' answer, q.call clp2 op = .ok (q', answer) ∧ q.Admits op answer

/-- The second page that a push opens behind a page without slots gets no items, and it is
the one that the first pop finds empty. -/
theorem pop_refused (item : T) {capacity : ℕ} (h : clp2 capacity = 0) :
    ∃ q q' : Calls T,
      Reached (Calls.step clp2) (fun _ op => Limited op) (.initial clp2 (some capacity)) q ∧
        q.pushed = [item] ∧ q.popped = [] ∧ q.call clp2 .pop = .ok (q', .empty) := by
  have hinitial : Calls.initial clp2 (some capacity) = (⟨[.empty 0], [], []⟩ : Calls T) := by
    rw [Calls.initial, h]
  rw [hinitial]
  have hlimited : Limited (.push item fun capacity => decide (capacity < 2 ^ 63)) :=
    fun capacity hallocate => of_decide_eq_true hallocate
  let newest : Ring Unit T :=
    ⟨2, 0, 1, 1, Function.update ObjectStorage.raw 0 (some item), [((), item)], 1, 0⟩
  have hfirst : emplace (.empty 0) item = .ok none := rfl
  have hsecond : emplace (.empty 1) item = .ok none := rfl
  have hthird : emplace (.empty 2) item = .ok (some newest) := rfl
  have hone : clp2 1 = 1 := by decide +kernel
  have htwo : clp2 2 = 2 := by decide +kernel
  have hloop : emplaceLoop clp2 item (fun capacity => decide (capacity < 2 ^ 63)) pageFuel
      [.empty 0] = .ok ([.empty 0, .empty 1, newest], .pushed) := by
    have hcapacity : ∀ n, (.empty n : Ring Unit T).capacity = n := fun _ => rfl
    simp [emplaceLoop, pageFuel, hfirst, hsecond, hthird, hcapacity, hone, htwo]
  have hpush : Calls.step clp2 (⟨[.empty 0], [], []⟩ : Calls T)
      (.push item fun capacity => decide (capacity < 2 ^ 63)) =
        .ok ⟨[.empty 0, .empty 1, newest], [item], []⟩ := by
    rw [Calls.step, Calls.call, Calls.tryEmplace, hloop]
    rfl
  have hpop : Calls.call clp2 (⟨[.empty 0, .empty 1, newest], [item], []⟩ : Calls T) .pop =
      .ok (⟨[.empty 1, newest], [item], []⟩, .empty) := rfl
  exact ⟨_, _, .step .start hlimited hpush, rfl, rfl, hpop⟩

end Fimbulwinter.PageQueue
