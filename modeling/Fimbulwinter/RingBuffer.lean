import Fimbulwinter.ObjectStorage
import Mathlib.Data.List.Basic
import Mathlib.Tactic.Ring

/-! # Ring of a queue

The indices and slots that producers and a consumer share. A producer reserves a slot,
constructs its item there and publishes it; the slots are published in the order of
their reservations. The consumer takes published items, one slot always staying free. -/
namespace Fimbulwinter

def wrapReset (value max : ℕ) : ℕ := if value < max then value else 0

theorem wrapReset_mod (n : ℕ) {max : ℕ} (h : 0 < max) :
    wrapReset (n % max + 1) max = (n + 1) % max := by
  rw [wrapReset]
  split_ifs with hlt
  · rw [← Nat.mod_eq_of_lt hlt, Nat.mod_add_mod]
  · have hlast : n % max + 1 = max := by
      have := Nat.mod_lt n h
      omega
    rw [← Nat.mod_add_mod, hlast, Nat.mod_self]

/-- Numbers less than one turn apart are in different places of a ring. -/
theorem eq_of_mod_eq {i j base max : ℕ} (h : i % max = j % max) (hi : base ≤ i)
    (hi' : i < base + max) (hj : base ≤ j) (hj' : j < base + max) : i = j := by
  rcases Nat.le_total i j with hle | hle
  · have hdvd : (j - i) % max = 0 := Nat.sub_mod_eq_zero_of_mod_eq h.symm
    have hzero := Nat.eq_zero_of_dvd_of_lt (Nat.dvd_of_mod_eq_zero hdvd) (by omega)
    omega
  · have hdvd : (i - j) % max = 0 := Nat.sub_mod_eq_zero_of_mod_eq h
    have hzero := Nat.eq_zero_of_dvd_of_lt (Nat.dvd_of_mod_eq_zero hdvd) (by omega)
    omega

/-- A ring, with the reservations that have been made and how many of them have been
published and taken. -/
structure Ring (P T : Type*) where
  capacity : ℕ
  readi : ℕ
  readendi : ℕ
  writei : ℕ
  storage : ObjectStorage ℕ T
  reserved : List (P × T)
  published : ℕ
  taken : ℕ

/-- What a producer has left to do after its reservation, which has a number. -/
inductive Ticket (T : Type*)
  | construct (item : T) (slot next index : ℕ)
  | checkin (item : T) (slot next index : ℕ)
  deriving DecidableEq, Repr

def Ticket.index {T : Type*} : Ticket T → ℕ
  | .construct _ _ _ index | .checkin _ _ _ index => index

/-- The steps that are left of a pop. -/
inductive Pop (T : Type*)
  | idle
  | barrier (slot : ℕ)
  | move (slot : ℕ)
  | destroy (slot : ℕ) (item : T)
  | store (slot : ℕ) (item : T)
  deriving DecidableEq, Repr

/-- Whether the item has been destroyed in the first slot. -/
def Pop.removed {T : Type*} : Pop T → ℕ
  | .store _ _ => 1
  | .idle | .barrier _ | .move _ | .destroy _ _ => 0

namespace Ring

variable {P T : Type*}

def empty (capacity : ℕ) : Ring P T := ⟨capacity, 0, 0, 0, .raw, [], 0, 0⟩

def reserve (r : Ring P T) (p : P) (item : T) (next : ℕ) : Ring P T :=
  { r with writei := next, reserved := r.reserved ++ [(p, item)] }

def publish (r : Ring P T) (next : ℕ) : Ring P T :=
  { r with readendi := next, published := r.published + 1 }

def take (r : Ring P T) (next : ℕ) : Ring P T :=
  { r with readi := next, taken := r.taken + 1 }

/-- The reservation that belongs to a slot. -/
structure Placed (r : Ring P T) (p : P) (item : T) (slot next index : ℕ) : Prop where
  lower : r.published ≤ index
  upper : index < r.reserved.length
  slot_eq : slot = index % r.capacity
  next_eq : next = (index + 1) % r.capacity
  reservation : r.reserved[index]? = some (p, item)

def TicketHolds (r : Ring P T) (p : P) : Ticket T → Prop
  | .construct item slot next index => r.Placed p item slot next index ∧ r.storage slot = none
  | .checkin item slot next index => r.Placed p item slot next index ∧ r.storage slot = some item

/-- The slot that is popped from is the first one, and holds the first item that is left. -/
def PopHolds (r : Ring P T) : Pop T → Prop
  | .idle => True
  | .barrier slot => slot = r.readi
  | .move slot => slot = r.readi ∧ r.taken < r.published
  | .destroy slot item | .store slot item =>
    slot = r.readi ∧ r.taken < r.published ∧ r.reserved[r.taken]?.map Prod.snd = some item

/-- Indices count reservations, publications and pops around the ring, every reservation
that is not published has a producer that works on it, and the slots hold exactly the
items in between. -/
structure Valid (r : Ring P T) (tickets : P → Option (Ticket T)) (pop : Pop T) : Prop where
  readi : r.readi = r.taken % r.capacity
  readendi : r.readendi = r.published % r.capacity
  writei : r.writei = r.reserved.length % r.capacity
  taken_le : r.taken ≤ r.published
  published_le : r.published ≤ r.reserved.length
  fits : r.reserved.length ≤ r.taken + (r.capacity - 1)
  null : r.capacity = 0 → r.reserved = []
  held : ∀ i, r.published ≤ i → i < r.reserved.length → ∃ p t, tickets p = some t ∧ t.index = i
  tickets : ∀ p t, tickets p = some t → r.TicketHolds p t
  objects : ∀ i, r.taken + pop.removed ≤ i → i < r.published →
    r.storage (i % r.capacity) = r.reserved[i]?.map Prod.snd
  raw : ∀ j, (∀ i, r.taken + pop.removed ≤ i → i < r.reserved.length → j ≠ i % r.capacity) →
    r.storage j = none
  pop : r.PopHolds pop

theorem empty_valid (capacity : ℕ) :
    (empty capacity : Ring P T).Valid (fun _ => none) .idle where
  readi := (Nat.zero_mod _).symm
  readendi := (Nat.zero_mod _).symm
  writei := (Nat.zero_mod _).symm
  taken_le := Nat.le_refl _
  published_le := Nat.le_refl _
  fits := Nat.zero_le _
  null := fun _ => rfl
  held := fun i _ hi => absurd hi (Nat.not_lt_zero i)
  tickets := fun _ _ h => absurd h.symm (Option.some_ne_none _)
  objects := fun i _ hi => absurd hi (Nat.not_lt_zero i)
  raw := fun _ _ => rfl
  pop := trivial

section Steps

variable {r : Ring P T} {tickets : P → Option (Ticket T)} {pop : Pop T} {p : P} {item : T}
  {slot next index : ℕ}

theorem Valid.slot_lt (h : r.Valid tickets pop) (hlt : index < r.reserved.length) :
    index < r.taken + r.capacity := by
  have := h.fits
  have := h.taken_le
  have := h.published_le
  omega

theorem Valid.first_le (h : r.Valid tickets pop) : r.taken + pop.removed ≤ r.published := by
  have hpop := h.pop
  have hle := h.taken_le
  cases pop with
  | store slot item => exact hpop.2.1
  | idle | barrier slot | move slot | destroy slot item => exact hle

/-- Reservations that are in the ring together have different slots. -/
theorem Valid.slot_inj (h : r.Valid tickets pop) {i j : ℕ} (hi : r.taken ≤ i)
    (hi' : i < r.reserved.length) (hj : r.taken ≤ j) (hj' : j < r.reserved.length)
    (heq : i % r.capacity = j % r.capacity) : i = j :=
  eq_of_mod_eq heq hi (h.slot_lt hi') hj (h.slot_lt hj')

/-- One reservation belongs to one producer. -/
theorem Valid.ticket_unique (h : r.Valid tickets pop) {q : P} {t u : Ticket T}
    (ht : tickets p = some t) (hu : tickets q = some u) (heq : t.index = u.index) : p = q := by
  have reserved : ∀ {p : P} {t : Ticket T}, r.TicketHolds p t →
      ∃ item, r.reserved[t.index]? = some (p, item) := by
    intro p t ht
    cases t with
    | construct item slot next index => exact ⟨item, ht.1.reservation⟩
    | checkin item slot next index => exact ⟨item, ht.1.reservation⟩
  obtain ⟨x, hx⟩ := reserved (h.tickets p t ht)
  obtain ⟨y, hy⟩ := reserved (h.tickets q u hu)
  rw [heq, hy] at hx
  exact (Prod.mk.inj (Option.some.inj hx)).1.symm

theorem Placed.reserve (h : r.Placed p item slot next index) (q : P) (x : T) (n : ℕ) :
    (r.reserve q x n).Placed p item slot next index where
  lower := h.lower
  upper := by
    have hupper := h.upper
    simp only [Ring.reserve, List.length_append]
    omega
  slot_eq := h.slot_eq
  next_eq := h.next_eq
  reservation := by
    rw [Ring.reserve, List.getElem?_append_left h.upper]
    exact h.reservation

theorem TicketHolds.reserve {t : Ticket T} (h : r.TicketHolds p t) (q : P) (x : T) (n : ℕ) :
    (r.reserve q x n).TicketHolds p t := by
  cases t with
  | construct item slot next index => exact ⟨h.1.reserve q x n, h.2⟩
  | checkin item slot next index => exact ⟨h.1.reserve q x n, h.2⟩

theorem PopHolds.reserve (h : r.PopHolds pop) (hle : r.published ≤ r.reserved.length) (q : P)
    (x : T) (n : ℕ) : (r.reserve q x n).PopHolds pop := by
  have hfirst : r.taken < r.published →
      (r.reserve q x n).reserved[r.taken]? = r.reserved[r.taken]? := fun hlt =>
    List.getElem?_append_left (Nat.lt_of_lt_of_le hlt hle)
  cases pop with
  | idle => trivial
  | barrier slot => exact h
  | move slot => exact h
  | destroy slot item => exact ⟨h.1, h.2.1, by rw [Ring.reserve] at *; rw [hfirst h.2.1]; exact h.2.2⟩
  | store slot item => exact ⟨h.1, h.2.1, by rw [Ring.reserve] at *; rw [hfirst h.2.1]; exact h.2.2⟩

theorem Valid.next_eq (h : r.Valid tickets pop) (hnext : next = wrapReset (r.writei + 1) r.capacity)
    (hroom : r.readi ≠ next) :
    next = (r.reserved.length + 1) % r.capacity ∧
      r.reserved.length + 1 ≤ r.taken + (r.capacity - 1) := by
  have hpos : 0 < r.capacity := by
    refine Nat.pos_of_ne_zero fun hzero => hroom ?_
    have hlength : r.reserved.length = 0 := List.length_eq_zero_iff.mpr (h.null hzero)
    have htaken : r.taken = 0 := by
      have := h.taken_le
      have := h.published_le
      omega
    rw [h.readi, htaken, Nat.zero_mod, hnext, hzero]
    exact (if_neg (Nat.not_lt_zero _)).symm
  have hwrap : next = (r.reserved.length + 1) % r.capacity := by
    rw [hnext, h.writei, wrapReset_mod _ hpos]
  refine ⟨hwrap, ?_⟩
  by_contra hfull
  have hfits := h.fits
  have hlength : r.reserved.length + 1 = r.taken + r.capacity := by omega
  rw [h.readi, hwrap, hlength, Nat.add_mod_right] at hroom
  exact hroom rfl

theorem Valid.storage_writei (h : r.Valid tickets pop)
    (hroom : r.reserved.length + 1 ≤ r.taken + (r.capacity - 1)) : r.storage r.writei = none := by
  refine h.raw _ fun i hi hi' heq => ?_
  have htaken : r.taken ≤ r.reserved.length := h.taken_le.trans h.published_le
  have hlt : r.reserved.length < r.taken + r.capacity := by omega
  rw [h.writei] at heq
  have := eq_of_mod_eq heq htaken hlt (Nat.le_of_add_right_le hi) (h.slot_lt hi')
  omega

variable [DecidableEq P]

/-- A producer reserves the slot behind the last one while another one stays free. -/
theorem Valid.reserve (h : r.Valid tickets pop) (hp : tickets p = none) (item : T)
    (hnext : next = wrapReset (r.writei + 1) r.capacity) (hroom : r.readi ≠ next) :
    (r.reserve p item next).Valid
      (Function.update tickets p (some (.construct item r.writei next r.reserved.length))) pop := by
  obtain ⟨hwrap, hfits⟩ := h.next_eq hnext hroom
  have hlength : (r.reserve p item next).reserved.length = r.reserved.length + 1 := by
    simp [Ring.reserve]
  constructor
  · exact h.readi
  · exact h.readendi
  · rw [hlength]
    exact hwrap
  · exact h.taken_le
  · rw [hlength]
    exact Nat.le_succ_of_le h.published_le
  · rw [hlength]
    exact hfits
  · intro hzero
    have : r.capacity ≠ 0 := by
      have := h.taken_le
      have := h.published_le
      omega
    exact absurd hzero this
  · intro i hi hi'
    rw [hlength] at hi'
    rcases Nat.lt_or_eq_of_le (Nat.le_of_lt_succ hi') with hlt | rfl
    · obtain ⟨q, t, hq, ht⟩ := h.held i hi hlt
      refine ⟨q, t, ?_, ht⟩
      rw [Function.update_of_ne (fun heq => by rw [heq, hp] at hq; cases hq)]
      exact hq
    · exact ⟨p, _, Function.update_self .., rfl⟩
  · intro q t hq
    by_cases hqp : q = p
    · subst hqp
      rw [Function.update_self] at hq
      cases hq
      refine ⟨⟨h.published_le, by rw [hlength]; omega, h.writei, hwrap, ?_⟩,
        h.storage_writei hfits⟩
      simp [Ring.reserve]
    · rw [Function.update_of_ne hqp] at hq
      exact (h.tickets q t hq).reserve p item next
  · intro i hi hi'
    change r.storage (i % r.capacity) = ((r.reserved ++ [(p, item)])[i]?).map Prod.snd
    rw [h.objects i hi hi', List.getElem?_append_left]
    exact Nat.lt_of_lt_of_le hi' h.published_le
  · intro j hj
    refine h.raw j fun i hi hi' => hj i hi ?_
    rw [hlength]
    exact Nat.lt_succ_of_lt hi'
  · exact h.pop.reserve h.published_le p item next

/-- A producer constructs its item in the slot it has reserved. -/
theorem Valid.construct (h : r.Valid tickets pop)
    (hp : tickets p = some (.construct item slot next index)) :
    ∃ storage, r.storage.construct slot item = .ok storage ∧
      ({ r with storage := storage } : Ring P T).Valid
        (Function.update tickets p (some (.checkin item slot next index))) pop := by
  obtain ⟨hplaced, hraw⟩ := h.tickets p _ hp
  refine ⟨_, ObjectStorage.construct_of_raw item hraw, ?_⟩
  have hother : ∀ i, r.taken ≤ i → i < r.reserved.length → i ≠ index → i % r.capacity ≠ slot := by
    intro i hi hi' hne heq
    rw [hplaced.slot_eq] at heq
    exact hne (h.slot_inj hi hi' (h.taken_le.trans hplaced.lower) hplaced.upper heq)
  refine { h with held := ?_, tickets := ?_, objects := ?_, raw := ?_, pop := h.pop }
  · intro i hi hi'
    obtain ⟨q, t, hq, ht⟩ := h.held i hi hi'
    by_cases hqp : q = p
    · subst hqp
      rw [hp] at hq
      cases hq
      exact ⟨q, _, Function.update_self .., ht⟩
    · exact ⟨q, t, by rw [Function.update_of_ne hqp]; exact hq, ht⟩
  · intro q t hq
    by_cases hqp : q = p
    · subst hqp
      rw [Function.update_self] at hq
      cases hq
      exact ⟨{ hplaced with }, Function.update_self ..⟩
    · rw [Function.update_of_ne hqp] at hq
      have hne : t.index ≠ index := fun heq => hqp (h.ticket_unique hq hp heq)
      have hholds := h.tickets q t hq
      cases t with
      | construct item' slot' next' index' =>
        have hslot := hother index' (h.taken_le.trans hholds.1.lower) hholds.1.upper hne
        rw [← hholds.1.slot_eq] at hslot
        exact ⟨{ hholds.1 with }, (Function.update_of_ne hslot _ _).trans hholds.2⟩
      | checkin item' slot' next' index' =>
        have hslot := hother index' (h.taken_le.trans hholds.1.lower) hholds.1.upper hne
        rw [← hholds.1.slot_eq] at hslot
        exact ⟨{ hholds.1 with }, (Function.update_of_ne hslot _ _).trans hholds.2⟩
  · intro i hi hi'
    have hne : i ≠ index := (Nat.lt_of_lt_of_le hi' hplaced.lower).ne
    have hslot := hother i (Nat.le_of_add_right_le hi) (Nat.lt_of_lt_of_le hi' h.published_le) hne
    exact (Function.update_of_ne hslot _ _).trans (h.objects i hi hi')
  · intro j hj
    have hslot : j ≠ slot := by
      rw [hplaced.slot_eq]
      exact hj index (h.first_le.trans hplaced.lower) hplaced.upper
    exact (Function.update_of_ne hslot _ _).trans (h.raw j hj)

/-- The reservation whose turn it is is published, and no other one. -/
theorem Valid.publish (h : r.Valid tickets pop)
    (hp : tickets p = some (.checkin item slot next index)) (hturn : r.readendi = slot) :
    r.reserved[r.published]? = some (p, item) ∧
      (r.publish next).Valid (Function.update tickets p none) pop := by
  obtain ⟨hplaced, hobject⟩ := h.tickets p _ hp
  have hindex : index = r.published := by
    have hlt : r.published < r.reserved.length := Nat.lt_of_le_of_lt hplaced.lower hplaced.upper
    refine h.slot_inj (h.taken_le.trans hplaced.lower) hplaced.upper h.taken_le hlt ?_
    rw [← hplaced.slot_eq, ← hturn, h.readendi]
  subst hindex
  have hlater : ∀ {q : P} {t : Ticket T}, Function.update tickets p none q = some t →
      q ≠ p ∧ tickets q = some t ∧ t.index ≠ r.published := by
    intro q t hq
    have hqp : q ≠ p := by
      rintro rfl
      rw [Function.update_self] at hq
      cases hq
    rw [Function.update_of_ne hqp] at hq
    exact ⟨hqp, hq, fun heq => hqp (h.ticket_unique hq hp heq)⟩
  refine ⟨hplaced.reservation, ?_⟩
  constructor
  · exact h.readi
  · exact hplaced.next_eq
  · exact h.writei
  · exact Nat.le_succ_of_le h.taken_le
  · exact hplaced.upper
  · exact h.fits
  · exact h.null
  · intro i hi hi'
    obtain ⟨q, t, hq, ht⟩ := h.held i (Nat.le_of_succ_le hi) hi'
    have hqp : q ≠ p := by
      rintro rfl
      rw [hp] at hq
      cases hq
      exact absurd ht (Nat.ne_of_lt hi)
    exact ⟨q, t, by rw [Function.update_of_ne hqp]; exact hq, ht⟩
  · intro q t hq
    obtain ⟨-, hq, hne⟩ := hlater hq
    have hholds := h.tickets q t hq
    cases t with
    | construct item' slot' next' index' =>
      exact ⟨{ hholds.1 with lower := Nat.lt_of_le_of_ne hholds.1.lower (Ne.symm hne) }, hholds.2⟩
    | checkin item' slot' next' index' =>
      exact ⟨{ hholds.1 with lower := Nat.lt_of_le_of_ne hholds.1.lower (Ne.symm hne) }, hholds.2⟩
  · intro i hi hi'
    rcases Nat.lt_or_eq_of_le (Nat.le_of_lt_succ hi') with hlt | rfl
    · exact h.objects i hi hlt
    · change r.storage (r.published % r.capacity) = r.reserved[r.published]?.map Prod.snd
      rw [← hplaced.slot_eq, hobject, hplaced.reservation]
      rfl
  · exact h.raw
  · have hpop := h.pop
    cases pop with
    | idle => trivial
    | barrier slot' => exact hpop
    | move slot' => exact ⟨hpop.1, Nat.lt_succ_of_lt hpop.2⟩
    | destroy slot' item' => exact ⟨hpop.1, Nat.lt_succ_of_lt hpop.2.1, hpop.2.2⟩
    | store slot' item' => exact ⟨hpop.1, Nat.lt_succ_of_lt hpop.2.1, hpop.2.2⟩

omit [DecidableEq P]

theorem Valid.beginPop (h : r.Valid tickets .idle) : r.Valid tickets (.barrier r.readi) :=
  { h with pop := rfl }

theorem Valid.barrier (h : r.Valid tickets (.barrier slot)) :
    if slot = r.readendi then r.taken = r.published ∧ r.Valid tickets .idle
    else r.Valid tickets (.move slot) := by
  have hslot : slot = r.readi := h.pop
  have hmod : slot = r.readendi ↔ r.taken = r.published := by
    rw [hslot, h.readi, h.readendi]
    refine ⟨fun heq => ?_, fun heq => by rw [heq]⟩
    have hfits := h.published_le.trans h.fits
    rcases Nat.eq_zero_or_pos r.capacity with hzero | hpos
    · rw [hzero] at hfits
      exact Nat.le_antisymm h.taken_le hfits
    · exact eq_of_mod_eq heq (Nat.le_refl _) (Nat.lt_add_of_pos_right hpos) h.taken_le (by omega)
  split_ifs with heq
  · exact ⟨hmod.mp heq, { h with pop := trivial }⟩
  · have hlt : r.taken < r.published := Nat.lt_of_le_of_ne h.taken_le fun h => heq (hmod.mpr h)
    exact { h with pop := ⟨hslot, hlt⟩ }

/-- The first item is read from its slot. -/
theorem Valid.move (h : r.Valid tickets (.move slot)) :
    ∃ item, r.storage.read slot = .ok item ∧ r.Valid tickets (.destroy slot item) := by
  obtain ⟨hslot, hlt⟩ := h.pop
  have hlength : r.taken < r.reserved.length := Nat.lt_of_lt_of_le hlt h.published_le
  have hobject := h.objects r.taken (Nat.le_refl _) hlt
  rw [← h.readi, ← hslot, List.getElem?_eq_getElem hlength] at hobject
  refine ⟨_, ObjectStorage.read_of_some hobject, { h with pop := ⟨hslot, hlt, ?_⟩ }⟩
  rw [List.getElem?_eq_getElem hlength, Option.map_some]

theorem Valid.destroy (h : r.Valid tickets (.destroy slot item)) :
    ∃ storage, r.storage.destruct slot = .ok storage ∧
      ({ r with storage := storage } : Ring P T).Valid tickets (.store slot item) := by
  obtain ⟨hslot, hlt, hitem⟩ := h.pop
  have hlength : r.taken < r.reserved.length := Nat.lt_of_lt_of_le hlt h.published_le
  have hobject := h.objects r.taken (Nat.le_refl _) hlt
  rw [← h.readi, ← hslot, hitem] at hobject
  refine ⟨_, ObjectStorage.destruct_of_some hobject, ?_⟩
  have hother : ∀ i, r.taken < i → i < r.reserved.length → i % r.capacity ≠ slot := by
    intro i hi hi' heq
    rw [hslot, h.readi] at heq
    exact hi.ne' (h.slot_inj hi.le hi' (Nat.le_refl _) hlength heq)
  refine { h with tickets := ?_, objects := ?_, raw := ?_, pop := ⟨hslot, hlt, hitem⟩ }
  · intro p t hp
    have hholds := h.tickets p t hp
    cases t with
    | construct item' slot' next index =>
      have hne := hother index (Nat.lt_of_lt_of_le hlt hholds.1.lower) hholds.1.upper
      rw [← hholds.1.slot_eq] at hne
      exact ⟨{ hholds.1 with }, (Function.update_of_ne hne _ _).trans hholds.2⟩
    | checkin item' slot' next index =>
      have hne := hother index (Nat.lt_of_lt_of_le hlt hholds.1.lower) hholds.1.upper
      rw [← hholds.1.slot_eq] at hne
      exact ⟨{ hholds.1 with }, (Function.update_of_ne hne _ _).trans hholds.2⟩
  · intro i hi hi'
    have hne := hother i hi (Nat.lt_of_lt_of_le hi' h.published_le)
    exact (Function.update_of_ne hne _ _).trans (h.objects i (Nat.le_of_succ_le hi) hi')
  · intro j hj
    by_cases heq : j = slot
    · subst heq
      exact Function.update_self ..
    · refine (Function.update_of_ne heq _ _).trans (h.raw j fun i hi hi' => ?_)
      rcases Nat.lt_or_eq_of_le hi with hlater | rfl
      · exact hj i hlater hi'
      · change j ≠ r.taken % r.capacity
        rw [← h.readi, ← hslot]
        exact heq

/-- The slot of the item that is popped becomes free. -/
theorem Valid.take (h : r.Valid tickets (.store slot item)) :
    r.reserved[r.taken]?.map Prod.snd = some item ∧
      (r.take (wrapReset (slot + 1) r.capacity)).Valid tickets .idle := by
  obtain ⟨hslot, hlt, hitem⟩ := h.pop
  have hcapacity : 0 < r.capacity := by
    have := h.fits
    have := h.published_le
    omega
  refine ⟨hitem, { h with readi := ?_, taken_le := hlt, fits := ?_, tickets := ?_, pop := trivial }⟩
  · rw [hslot, h.readi, wrapReset_mod _ hcapacity]
    rfl
  · change r.reserved.length ≤ r.taken + 1 + (r.capacity - 1)
    have := h.fits
    omega
  · intro p t hp
    have hholds := h.tickets p t hp
    cases t with
    | construct item' slot' next index => exact ⟨{ hholds.1 with }, hholds.2⟩
    | checkin item' slot' next index => exact ⟨{ hholds.1 with }, hholds.2⟩

/-- Equal read and write indices mean that everything has been taken. -/
theorem Valid.drained (h : r.Valid tickets pop) (heq : r.readi = r.writei) :
    r.taken = r.reserved.length := by
  have hle := h.taken_le.trans h.published_le
  have hfits := h.fits
  rcases Nat.eq_zero_or_pos r.capacity with hzero | hpos
  · rw [hzero] at hfits
    exact Nat.le_antisymm hle hfits
  · rw [h.readi, h.writei] at heq
    exact eq_of_mod_eq heq (Nat.le_refl _) (Nat.lt_add_of_pos_right hpos) hle (by omega)

/-- Without producers at work everything is published. -/
theorem Valid.published_eq (h : r.Valid tickets pop) (hidle : ∀ p, tickets p = none) :
    r.published = r.reserved.length := by
  refine Nat.le_antisymm h.published_le (Nat.le_of_not_lt fun hlt => ?_)
  obtain ⟨p, t, hp, -⟩ := h.held r.published (Nat.le_refl _) hlt
  rw [hidle p] at hp
  cases hp

end Steps

end Ring

end Fimbulwinter
