import Fimbulwinter.TransitionRuns
import Mathlib.Data.Set.Insert
import Mathlib.Order.Interval.Set.Basic
import Mathlib.Order.MinMax
import Mathlib.Algebra.Group.Nat.Defs
import Mathlib.Data.Set.BooleanAlgebra
import Mathlib.Order.CompletePartialOrder

/-! # `engine::EntityEnum`

Threads create entities and reserve ranges of them from one counter, which each call
advances in one atomic step before it tests the bound. Names are registered in the debug
build only and are left out; assertions return their condition. -/
namespace Fimbulwinter.EntityEnum

/-- The difference of two unsigned values. -/
def sub (a b : ℕ) : ℕ := (a + 2 ^ 64 - b) % 2 ^ 64

/-- A range of entities: the first one and their number. -/
structure EntityFactory where
  first : ℕ
  count : ℕ
  deriving DecidableEq, Repr

inductive Call
  | reserve (count : ℕ)
  | create
  deriving DecidableEq, Repr

/-- What the counter is advanced by. -/
def Call.amount : Call → ℕ
  | .reserve count => count
  | .create => 1

inductive Result
  | range (factory : EntityFactory)
  | entity (value : ℕ)
  deriving DecidableEq, Repr

/-- `Entity{}` -/
def noEntity : ℕ := 0

/-- The end of `reserve`, after the counter was read. -/
def reserveResult (factory : EntityFactory) (first count : ℕ) : EntityFactory :=
  let remaining := sub factory.count (sub first factory.first)
  if count ≤ remaining then ⟨first, count⟩ else ⟨first, remaining⟩

/-- The end of `create`, after the counter was read. -/
def createResult (factory : EntityFactory) (value : ℕ) : ℕ :=
  if sub value factory.first < factory.count then value else noEntity

def Call.result (factory : EntityFactory) (value : ℕ) : Call → Result
  | .reserve count => .range (reserveResult factory value count)
  | .create => .entity (createResult factory value)

/-- A call that has advanced the counter, and the value it has read. As a ghost, what had
been asked for before. -/
structure Ticket where
  call : Call
  value : ℕ
  before : ℕ
  deriving DecidableEq, Repr

/-- A call that has returned. -/
structure Return extends Ticket where
  result : Result
  deriving DecidableEq, Repr

/-- The counter, the calls that are under way, and as ghosts what has been asked for in total
and what has been returned. -/
structure State (Thread : Type*) where
  next : ℕ
  asked : ℕ
  pending : Thread → Option Ticket
  returned : List Return

inductive Action (Thread : Type*)
  /-- `fetch_add` -/
  | advance (thread : Thread) (call : Call)
  /-- The rest of the call, which reads the factory only. -/
  | finish (thread : Thread)

variable {Thread : Type*} [DecidableEq Thread] (factory : EntityFactory)

def State.initial : State Thread := ⟨factory.first, 0, fun _ => none, []⟩

/-- An action that does not apply changes nothing. -/
def step (s : State Thread) : Action Thread → Except Empty (State Thread)
  | .advance thread call =>
    match s.pending thread with
    | some _ => .ok s
    | none => .ok { s with
        next := (s.next + call.amount) % 2 ^ 64
        asked := s.asked + call.amount
        pending := Function.update s.pending thread (some ⟨call, s.next, s.asked⟩) }
  | .finish thread =>
    match s.pending thread with
    | none => .ok s
    | some ticket => .ok { s with
        pending := Function.update s.pending thread none
        returned := s.returned ++ [⟨ticket, ticket.call.result factory ticket.value⟩] }

/-! ## What the calls should return -/

/-- The range of a factory does not wrap. -/
structure EntityFactory.Valid (factory : EntityFactory) : Prop where
  first : factory.first < 2 ^ 64
  count : factory.count < 2 ^ 64
  range : factory.first + factory.count ≤ 2 ^ 64

def EntityFactory.entities (factory : EntityFactory) : Set ℕ :=
  Set.Ico factory.first (factory.first + factory.count)

/-- The entities that a call has handed out. -/
def Result.entities : Result → Set ℕ
  | .range factory => factory.entities
  | .entity value => if value = noEntity then ∅ else {value}

/-- The number of entities that were left when the call read the counter. -/
def Ticket.left (ticket : Ticket) : ℕ := factory.count - ticket.before

/-- The entities that were left. -/
def Ticket.rest (ticket : Ticket) : Set ℕ :=
  Set.Ico (factory.first + ticket.before) (factory.first + factory.count)

/-- Calls hand out disjoint parts of the range; a call is refused only when nothing is left, and
gets the rest when it asks for more than that. -/
structure HandsOut (returned : List Return) : Prop where
  inside : ∀ r ∈ returned, r.result.entities ⊆ factory.entities
  disjoint : returned.Pairwise fun r r' => Disjoint r.result.entities r'.result.entities
  created : ∀ r ∈ returned, r.call = .create → r.result = .entity noEntity → r.left factory = 0
  reserved : ∀ r ∈ returned, ∀ count, r.call = .reserve count → r.left factory < count →
    r.result.entities = r.rest factory

/-- What a call must keep to: no range is reserved once more than the whole range has been
asked for, and `Entity{}` is not the entity to create. -/
def Ticket.Fits (ticket : Ticket) : Prop :=
  match ticket.call with
  | .reserve count => count = 0 ∨ ticket.before ≤ factory.count
  | .create => 0 < factory.first + ticket.before ∨ factory.count = 0

/-! ## Tickets -/

/-- A ticket holds the value of the counter after what had been asked for before. -/
structure Ticket.Sound (ticket : Ticket) (asked : ℕ) : Prop where
  value : ticket.value = (factory.first + ticket.before) % 2 ^ 64
  until_asked : ticket.before + ticket.call.amount ≤ asked

/-- Two tickets stand for disjoint parts of what was asked for. -/
def Ticket.Apart (t t' : Ticket) : Prop :=
  t.before + t.call.amount ≤ t'.before ∨ t'.before + t'.call.amount ≤ t.before

variable {factory}

theorem Ticket.Sound.mono {t : Ticket} {asked asked' : ℕ} (h : t.Sound factory asked)
    (hle : asked ≤ asked') : t.Sound factory asked' :=
  ⟨h.value, Nat.le_trans h.until_asked hle⟩

section Results

variable {t : Ticket} {asked : ℕ}

/-- Both calls compute how many entities had been asked for before. -/
theorem Ticket.Sound.sub_value (h : t.Sound factory asked) (hasked : asked < 2 ^ 64)
    (hvalid : factory.Valid) : sub t.value factory.first = t.before := by
  have hbefore := h.until_asked
  have hfirst := hvalid.first
  rw [sub, h.value]
  omega

theorem entities_nil (first : ℕ) : (Result.range ⟨first, 0⟩).entities = ∅ :=
  Set.Ico_self _

/-- A call that keeps to the condition hands out what was left of what it asked for. -/
theorem Ticket.Sound.entities (h : t.Sound factory asked) (hasked : asked < 2 ^ 64)
    (hvalid : factory.Valid) (hfits : t.Fits factory) : (t.call.result factory t.value).entities =
      Set.Ico (factory.first + t.before)
        (min (factory.first + t.before + t.call.amount) (factory.first + factory.count)) := by
  have hsub := h.sub_value hasked hvalid
  have hbefore := h.until_asked
  obtain ⟨hfirst, hcount, hrange⟩ := hvalid
  cases hcall : t.call with
  | reserve count =>
    simp only [Ticket.Fits, hcall] at hfits
    simp only [hcall, Call.amount] at hbefore
    simp only [Call.result, Call.amount, reserveResult, hsub]
    by_cases hle : t.before ≤ factory.count
    · have hremaining : sub factory.count t.before = factory.count - t.before := by
        rw [sub]
        omega
      rw [hremaining]
      -- Nothing is left when the counter stands at the end of the range.
      by_cases hend : t.before = factory.count
      · have hnil : (if count ≤ factory.count - t.before then (⟨t.value, count⟩ : EntityFactory)
            else ⟨t.value, factory.count - t.before⟩) = ⟨t.value, 0⟩ := by
          split_ifs with hcount <;> congr 1 <;> omega
        rw [hnil, entities_nil, Set.Ico_eq_empty]
        omega
      · have hvalue : t.value = factory.first + t.before := by
          rw [h.value]
          omega
        rw [hvalue]
        split_ifs with hcount
        · rw [Result.entities, EntityFactory.entities, min_eq_left (by omega)]
        · rw [Result.entities, EntityFactory.entities, min_eq_right (by omega)]
          congr 1
          simp only
          omega
    · obtain rfl : count = 0 := hfits.resolve_right hle
      rw [if_pos (Nat.zero_le _), entities_nil, Set.Ico_eq_empty]
      omega
  | create =>
    simp only [Ticket.Fits, hcall] at hfits
    simp only [Call.result, Call.amount, createResult, hsub]
    by_cases hlt : t.before < factory.count
    · have hvalue : t.value = factory.first + t.before := by
        rw [h.value]
        omega
      have hne : t.value ≠ noEntity := by
        rw [hvalue, noEntity]
        omega
      rw [if_pos hlt, Result.entities, if_neg hne, min_eq_left (by omega), hvalue]
      ext value
      simp only [Set.mem_singleton_iff, Set.mem_Ico]
      omega
    · rw [if_neg hlt, Result.entities, if_pos rfl, Set.Ico_eq_empty]
      omega

/-- A range that is reserved too late lies behind the range of the factory. -/
theorem Ticket.Sound.reserve_outside (h : t.Sound factory asked) (hasked : asked < 2 ^ 64)
    (hvalid : factory.Valid) {count : ℕ} (hcall : t.call = .reserve count) (hcount : count ≠ 0)
    (hlt : factory.count < t.before) :
    t.value ∈ (t.call.result factory t.value).entities ∧ t.value ∉ factory.entities := by
  have hsub := h.sub_value hasked hvalid
  have hbefore := h.until_asked
  obtain ⟨hfirst, -, hrange⟩ := hvalid
  have hvalue := h.value
  have hremaining : sub factory.count t.before = factory.count + 2 ^ 64 - t.before := by
    rw [sub]
    omega
  rw [hcall, Call.amount] at hbefore
  rw [hcall, Call.result, reserveResult, hsub, hremaining, if_pos (by omega)]
  simp only [Result.entities, EntityFactory.entities, Set.mem_Ico]
  omega

/-- `Entity{}` is returned for the entity 0. -/
theorem Ticket.Sound.create_zero (h : t.Sound factory asked) (hcall : t.call = .create)
    (hzero : factory.first + t.before = 0) :
    t.call.result factory t.value = .entity noEntity := by
  have hvalue : t.value = noEntity := by
    rw [h.value, hzero]
    rfl
  rw [hcall, Call.result, createResult, hvalue, ite_self]

end Results

/-! ## Runs -/

/-- The counter, and what the tickets stand for. -/
structure State.Sound (factory : EntityFactory) (s : State Thread) : Prop where
  next : s.next = (factory.first + s.asked) % 2 ^ 64
  pending : ∀ thread t, s.pending thread = some t → t.Sound factory s.asked
  returned : ∀ r ∈ s.returned, r.toTicket.Sound factory s.asked ∧
    r.result = r.call.result factory r.value
  pending_apart : ∀ thread thread' t t', thread ≠ thread' → s.pending thread = some t →
    s.pending thread' = some t' → t.Apart t'
  returned_apart : s.returned.Pairwise fun r r' => r.toTicket.Apart r'.toTicket
  apart : ∀ thread t, s.pending thread = some t → ∀ r ∈ s.returned, r.toTicket.Apart t

omit [DecidableEq Thread] in
theorem State.sound_initial (hfirst : factory.first < 2 ^ 64) :
    (State.initial factory : State Thread).Sound factory where
  next := (Nat.mod_eq_of_lt hfirst).symm
  pending := fun _ _ h => nomatch h
  returned := fun _ h => nomatch h
  pending_apart := fun _ _ _ _ _ h => nomatch h
  returned_apart := .nil
  apart := fun _ _ h => nomatch h

/-- A new ticket stands for what nobody has asked for yet. -/
theorem State.Sound.advance {s : State Thread} (h : s.Sound factory) (thread : Thread)
    (call : Call) : State.Sound factory { s with
      next := (s.next + call.amount) % 2 ^ 64
      asked := s.asked + call.amount
      pending := Function.update s.pending thread (some ⟨call, s.next, s.asked⟩) } where
  next := by
    simp only [h.next]
    omega
  pending := by
    intro thread' t ht
    simp only [Function.update_apply] at ht
    split_ifs at ht
    · cases ht
      exact ⟨h.next, Nat.le_refl _⟩
    · exact (h.pending thread' t ht).mono (Nat.le_add_right _ _)
  returned := fun r hr => ⟨(h.returned r hr).1.mono (Nat.le_add_right _ _), (h.returned r hr).2⟩
  pending_apart := by
    intro thread₁ thread₂ t t' hne ht ht'
    simp only [Function.update_apply] at ht ht'
    split_ifs at ht ht' with h₁ h₂ h₂
    · exact absurd (h₁.trans h₂.symm) hne
    · cases ht
      exact .inr (h.pending thread₂ t' ht').until_asked
    · cases ht'
      exact .inl (h.pending thread₁ t ht).until_asked
    · exact h.pending_apart thread₁ thread₂ t t' hne ht ht'
  returned_apart := h.returned_apart
  apart := by
    intro thread' t ht r hr
    simp only [Function.update_apply] at ht
    split_ifs at ht
    · cases ht
      exact .inl (h.returned r hr).1.until_asked
    · exact h.apart thread' t ht r hr

theorem State.Sound.finish {s : State Thread} (h : s.Sound factory) {thread : Thread} {t : Ticket}
    (ht : s.pending thread = some t) : State.Sound factory { s with
      pending := Function.update s.pending thread none
      returned := s.returned ++ [⟨t, t.call.result factory t.value⟩] } where
  next := h.next
  pending := by
    intro thread' t' ht'
    simp only [Function.update_apply] at ht'
    split_ifs at ht'
    exact h.pending thread' t' ht'
  returned := by
    intro r hr
    obtain hr | hr := List.mem_append.mp hr
    · exact h.returned r hr
    · obtain rfl := List.mem_singleton.mp hr
      exact ⟨h.pending thread t ht, rfl⟩
  pending_apart := by
    intro thread₁ thread₂ t₁ t₂ hne ht₁ ht₂
    simp only [Function.update_apply] at ht₁ ht₂
    split_ifs at ht₁ ht₂
    exact h.pending_apart thread₁ thread₂ t₁ t₂ hne ht₁ ht₂
  returned_apart := by
    refine List.pairwise_append.mpr ⟨h.returned_apart, List.pairwise_singleton _ _, ?_⟩
    intro r hr r' hr'
    obtain rfl := List.mem_singleton.mp hr'
    exact h.apart thread t ht r hr
  apart := by
    intro thread' t' ht' r hr
    simp only [Function.update_apply] at ht'
    split_ifs at ht' with hne
    obtain hr | hr := List.mem_append.mp hr
    · exact h.apart thread' t' ht' r hr
    · obtain rfl := List.mem_singleton.mp hr
      exact h.pending_apart thread thread' t t' (Ne.symm hne) ht ht'

theorem State.Sound.step {s s' : State Thread} (h : s.Sound factory) (action : Action Thread)
    (hs : EntityEnum.step factory s action = .ok s') : s'.Sound factory := by
  cases action with
  | advance thread call =>
    simp only [EntityEnum.step] at hs
    split at hs <;> cases hs
    · exact h
    · exact h.advance thread call
  | finish thread =>
    simp only [EntityEnum.step] at hs
    split at hs
    · cases hs
      exact h
    next t ht =>
      cases hs
      exact h.finish ht

theorem sound_of_reached {s : State Thread} (hfirst : factory.first < 2 ^ 64)
    (h : Reached (EntityEnum.step factory) (fun _ _ => True) (.initial factory) s) :
    s.Sound factory :=
  h.invariant (State.sound_initial hfirst) fun hsound _ hs => hsound.step _ hs

/-- A range of four entities. -/
def fourEntities : EntityFactory := ⟨8, 4⟩

/-- One thread creates an entity while another reserves what is left of the range. -/
def createAndReserve : List (Action Bool) :=
  [.advance true .create, .advance false (.reserve 5), .finish false, .finish true]

/-- Ranges of five entities: the first takes the rest, and the second lies behind. -/
def reserveTwice : List (Action Unit) :=
  [.advance () (.reserve 5), .finish (), .advance () (.reserve 5), .finish ()]

end Fimbulwinter.EntityEnum
