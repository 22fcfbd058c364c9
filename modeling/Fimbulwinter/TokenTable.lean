import Fimbulwinter.TransitionRuns
import Mathlib.Data.List.Nodup
import Mathlib.Data.List.Perm.Basic
import Mathlib.Logic.Function.Basic

/-! # `engine/TokenTable.cpp` and `engine::EntityFactory`

The debug build names ranges of tokens in a table of fixed size, where entity factories register
themselves when they are constructed, and unregister when they are destroyed. Values are of 64
bits and wrap around, and assertions return their condition. What a callback writes is left
out. -/
namespace Fimbulwinter.TokenTable

abbrev Value := BitVec 64

structure Range where
  first : Value
  count : Value
  deriving DecidableEq, Repr

/-- The test of `find_by_value` -/
def Range.Contains (range : Range) (value : Value) : Prop := value - range.first < range.count

instance (range : Range) (value : Value) : Decidable (range.Contains value) :=
  inferInstanceAs (Decidable (_ < _))

variable {Name : Type*}

/-- A range with what is known of it, a name or a callback -/
structure Entry (Name : Type*) where
  range : Range
  name : Name
  deriving DecidableEq, Repr

abbrev Table (Name : Type*) := List (Entry Name)

/-- `max` -/
def maxSize : ℕ := 100

/-- `find_by_range` -/
def findByRange (table : Table Name) (range : Range) : Option ℕ :=
  table.findIdx? (·.range = range)

/-- `find_by_value` -/
def findByValue (table : Table Name) (value : Value) : Option ℕ :=
  table.findIdx? fun entry => entry.range.Contains value

/-- `register_callback`; none when an assertion fails -/
def register (table : Table Name) (range : Range) (name : Name) : Option (Table Name) :=
  if table.length < maxSize ∧ findByRange table range = none then some (table ++ [⟨range, name⟩])
  else none

/-- The last entry takes the place of the one that is removed. -/
def removeAt (table : Table Name) (index : ℕ) : Table Name :=
  match table.getLast? with
  | none => table
  | some last => (table.set index last).dropLast

/-- `unregister_callback`; none when the assertion fails -/
def unregister (table : Table Name) (range : Range) : Option (Table Name) :=
  match findByRange table range with
  | none => none
  | some index => some (removeAt table index)

theorem findByRange_eq_none {table : Table Name} {range : Range} :
    findByRange table range = none ↔ ∀ entry ∈ table, entry.range ≠ range := by
  simp [findByRange, List.findIdx?_eq_none_iff]

theorem findByRange_eq_some {table : Table Name} {range : Range} {index : ℕ}
    (h : findByRange table range = some index) :
    ∃ entry, table[index]? = some entry ∧ entry.range = range := by
  obtain ⟨hlt, hentry, -⟩ := List.findIdx?_eq_some_iff_getElem.mp h
  exact ⟨table[index], List.getElem?_eq_getElem hlt, by simpa using hentry⟩

/-- Removing by swapping leaves all other entries. -/
theorem removeAt_perm {table : Table Name} {index : ℕ} {entry : Entry Name}
    (h : table[index]? = some entry) : (entry :: removeAt table index).Perm table := by
  obtain ⟨hlt, hentry⟩ := List.getElem?_eq_some_iff.mp h
  rcases List.eq_nil_or_concat' table with rfl | ⟨front, last, rfl⟩
  · simp at hlt
  · simp only [removeAt, List.getLast?_concat]
    by_cases hfront : index < front.length
    · rw [List.set_append_left _ _ hfront, List.dropLast_concat]
      rw [List.getElem_append_left hfront] at hentry
      subst hentry
      have hset := (List.set_perm_cons_eraseIdx hfront last).cons front[index]
      have hback := (List.getElem_cons_eraseIdx_perm hfront).cons last
      exact ((hset.trans (.swap ..)).trans hback).trans (List.perm_append_singleton last front).symm
    · have heq : index = front.length := by
        rw [List.length_append, List.length_singleton] at hlt
        omega
      subst heq
      simp only [List.getElem_concat_length] at hentry
      subst hentry
      simpa using (List.perm_append_singleton last front).symm

def ranges (table : Table Name) : List Range := table.map Entry.range

/-- A range that is in the table can be removed from it. -/
theorem unregister_of_mem {table : Table Name} {range : Range} (h : range ∈ ranges table) :
    ∃ table', unregister table range = some table' ∧
      (range :: ranges table').Perm (ranges table) := by
  obtain ⟨entry, hentry, hrange⟩ := List.mem_map.mp h
  cases hindex : findByRange table range with
  | none => exact absurd hrange (findByRange_eq_none.mp hindex entry hentry)
  | some index =>
    obtain ⟨found, hfound, rfl⟩ := findByRange_eq_some hindex
    refine ⟨removeAt table index, by simp only [unregister, hindex], ?_⟩
    exact (removeAt_perm hfound).map Entry.range

/-- The table has a name for a value if one of its ranges contains it. -/
theorem findByValue_isSome {table : Table Name} {value : Value} :
    (findByValue table value).isSome ↔ ∃ range ∈ ranges table, range.Contains value := by
  simp [findByValue, ranges]

/-! ## Factories -/

/-- The registry: the table, and the entity factories that live, by their ids -/
structure State (Name : Type*) where
  table : Table Name
  factories : ℕ → Option Range

/-- What happens to entity factories -/
inductive Action (Name : Type*)
  | construct (id : ℕ) (range : Range) (name : Name)
  | moveConstruct (id other : ℕ)
  | moveAssign (id other : ℕ)
  | destroy (id : ℕ)

/-- `EntityFactory(from, count, name)`; a factory that cannot register is disabled. -/
def construct (table : Table Name) (range : Range) (name : Name) : Table Name × Range :=
  if range.count ≠ 0 then
    match register table range name with
    | none => (table, { range with count := 0 })
    | some table => (table, range)
  else (table, range)

/-- The destructor, and what an assignment does before it takes another range; none when an
assertion fails -/
def release (table : Table Name) (factory : Range) : Option (Table Name) :=
  if factory.count ≠ 0 then unregister table factory else some table

/-- `debug_unregister` does not find a range. -/
inductive Misuse
  | unregistered
  | lifetime
  deriving DecidableEq, Repr

/-- A range is taken from a factory, which is disabled. -/
def take (factories : ℕ → Option Range) (id other : ℕ) (range : Range) : ℕ → Option Range :=
  Function.update (Function.update factories id (some range)) other
    (some { range with count := 0 })

def step (s : State Name) : Action Name → Except Misuse (State Name)
  | .construct id range name =>
    let (table, range) := construct s.table range name
    .ok ⟨table, Function.update s.factories id (some range)⟩
  | .moveConstruct id other =>
    match s.factories other with
    | none => .error .lifetime
    | some range => .ok ⟨s.table, take s.factories id other range⟩
  | .moveAssign id other =>
    match s.factories id, s.factories other with
    | some old, some range =>
      match release s.table old with
      | none => .error .unregistered
      | some table => .ok ⟨table, take s.factories id other range⟩
    | _, _ => .error .lifetime
  | .destroy id =>
    match s.factories id with
    | none => .error .lifetime
    | some old =>
      match release s.table old with
      | none => .error .unregistered
      | some table => .ok ⟨table, Function.update s.factories id none⟩

/-- New factories get an id of their own, and the other ones live. -/
def Lives (s : State Name) : Action Name → Prop
  | .construct id _ _ => s.factories id = none
  | .moveConstruct id other => s.factories id = none ∧ (s.factories other).isSome
  | .moveAssign id other => (s.factories id).isSome ∧ (s.factories other).isSome
  | .destroy id => (s.factories id).isSome

/-- Some factory has the range, and is not disabled. -/
def Held (factories : ℕ → Option Range) (range : Range) : Prop :=
  range.count ≠ 0 ∧ ∃ id, factories id = some range

/-- The table has what factories hold and what others have registered, each range once. -/
structure Registered (others : List Range) (s : State Name) : Prop where
  nodup : (ranges s.table).Nodup
  mem : ∀ range, range ∈ ranges s.table ↔ range ∈ others ∨ Held s.factories range
  unique : ∀ id id' range, range.count ≠ 0 → s.factories id = some range →
    s.factories id' = some range → id = id'
  apart : ∀ range, Held s.factories range → range ∉ others

variable {others : List Range} {s s' : State Name} {id other : ℕ} {range : Range}

/-- A disabled factory holds nothing. -/
theorem held_update_disabled {factories : ℕ → Option Range} (hnone : factories id = none)
    (hzero : range.count = 0) (r : Range) :
    Held (Function.update factories id (some range)) r ↔ Held factories r := by
  refine and_congr_right fun hr => ⟨?_, ?_⟩
  · rintro ⟨id', hid'⟩
    by_cases heq : id' = id
    · subst heq
      rw [Function.update_self] at hid'
      exact absurd (Option.some.inj hid' ▸ hzero) hr
    · rw [Function.update_of_ne heq] at hid'
      exact ⟨id', hid'⟩
  · rintro ⟨id', hid'⟩
    refine ⟨id', ?_⟩
    rw [Function.update_of_ne, hid']
    rintro rfl
    rw [hnone] at hid'
    cases hid'

theorem Registered.disabled (h : Registered others s) (hnone : s.factories id = none)
    (hzero : range.count = 0) :
    Registered others ⟨s.table, Function.update s.factories id (some range)⟩ where
  nodup := h.nodup
  mem r := by rw [held_update_disabled hnone hzero, h.mem]
  unique id' id'' r hr hid' hid'' := by
    have hne (i : ℕ) (hi : Function.update s.factories id (some range) i = some r) : i ≠ id := by
      rintro rfl
      rw [Function.update_self] at hi
      exact hr (Option.some.inj hi ▸ hzero)
    dsimp only at hid' hid''
    rw [Function.update_of_ne (hne id' hid')] at hid'
    rw [Function.update_of_ne (hne id'' hid'')] at hid''
    exact h.unique id' id'' r hr hid' hid''
  apart r hr := h.apart r ((held_update_disabled hnone hzero r).mp hr)

/-- When a factory goes, its range is found and removed. -/
theorem Registered.release (h : Registered others s) (hid : s.factories id = some range) :
    ∃ table, release s.table range = some table ∧
      Registered others ⟨table, Function.update s.factories id none⟩ := by
  have hheld (r : Range) : Held (Function.update s.factories id none) r ↔
      Held s.factories r ∧ r ≠ range := by
    constructor
    · rintro ⟨hr, id', hid'⟩
      have hne : id' ≠ id := by
        rintro rfl
        rw [Function.update_self] at hid'
        cases hid'
      rw [Function.update_of_ne hne] at hid'
      refine ⟨⟨hr, id', hid'⟩, ?_⟩
      rintro rfl
      exact hne (h.unique id' id r hr hid' hid)
    · rintro ⟨⟨hr, id', hid'⟩, hne⟩
      refine ⟨hr, id', ?_⟩
      rw [Function.update_of_ne, hid']
      rintro rfl
      rw [hid] at hid'
      exact hne (Option.some.inj hid').symm
  have hunique : ∀ id' id'' r, r.count ≠ 0 → Function.update s.factories id none id' = some r →
      Function.update s.factories id none id'' = some r → id' = id'' := by
    intro id' id'' r hr hid' hid''
    have hold (i : ℕ) (hi : Function.update s.factories id none i = some r) :
        s.factories i = some r := by
      by_cases heq : i = id
      · subst heq
        rw [Function.update_self] at hi
        cases hi
      · rwa [Function.update_of_ne heq] at hi
    exact h.unique id' id'' r hr (hold id' hid') (hold id'' hid'')
  unfold TokenTable.release
  split_ifs with hcount
  · have hin : Held s.factories range := ⟨hcount, id, hid⟩
    obtain ⟨table, htable, hperm⟩ := unregister_of_mem ((h.mem range).mpr (.inr hin))
    have hnodup := hperm.nodup_iff.mpr h.nodup
    obtain ⟨hnotMem, hnodup⟩ := List.nodup_cons.mp hnodup
    refine ⟨table, htable, hnodup, fun r => ?_, hunique, fun r hr => h.apart r ((hheld r).mp hr).1⟩
    have hmem : r ∈ ranges table ↔ r ∈ ranges s.table ∧ r ≠ range := by
      rw [← hperm.mem_iff, List.mem_cons]
      constructor
      · intro hr
        exact ⟨.inr hr, fun heq => hnotMem (heq ▸ hr)⟩
      · rintro ⟨heq | hr, hne⟩
        · exact absurd heq hne
        · exact hr
    rw [hmem, h.mem, hheld, or_and_right]
    refine or_congr_left ⟨fun hr => hr.1, fun hr => ⟨hr, ?_⟩⟩
    rintro rfl
    exact h.apart r hin hr
  · have hsame (r : Range) : Held (Function.update s.factories id none) r ↔
        Held s.factories r := by
      rw [hheld]
      refine ⟨fun hr => hr.1, fun hr => ⟨hr, ?_⟩⟩
      rintro rfl
      exact hr.1 (by simpa using hcount)
    exact ⟨s.table, rfl, h.nodup, fun r => by rw [hsame, h.mem], hunique,
      fun r hr => h.apart r ((hsame r).mp hr)⟩

/-- A range changes hands. -/
theorem Registered.take (h : Registered others s) (hnone : s.factories id = none)
    (hother : s.factories other = some range) :
    Registered others ⟨s.table, take s.factories id other range⟩ := by
  have hne : id ≠ other := by
    rintro rfl
    rw [hnone] at hother
    cases hother
  have hholder {r : Range} (hr : r.count ≠ 0) (i : ℕ) :
      TokenTable.take s.factories id other range i = some r ↔
        (i = id ∧ r = range) ∨ (i ≠ id ∧ i ≠ other ∧ s.factories i = some r) := by
    unfold TokenTable.take
    by_cases hiOther : i = other
    · subst hiOther
      rw [Function.update_self]
      constructor
      · intro heq
        rw [← Option.some.inj heq] at hr
        exact absurd rfl hr
      · rintro (⟨heq, -⟩ | ⟨-, hne', -⟩)
        · exact absurd heq hne.symm
        · exact absurd rfl hne'
    · rw [Function.update_of_ne hiOther]
      by_cases hiId : i = id
      · subst hiId
        rw [Function.update_self]
        simp [eq_comm]
      · rw [Function.update_of_ne hiId]
        simp [hiId, hiOther]
  have hheld (r : Range) : Held (TokenTable.take s.factories id other range) r ↔
      Held s.factories r := by
    refine and_congr_right fun hr => ⟨?_, ?_⟩
    · rintro ⟨i, hi⟩
      rcases (hholder hr i).mp hi with ⟨-, rfl⟩ | ⟨-, -, hi⟩
      · exact ⟨other, hother⟩
      · exact ⟨i, hi⟩
    · rintro ⟨i, hi⟩
      by_cases heq : i = other
      · subst heq
        rw [hother] at hi
        exact ⟨id, (hholder hr id).mpr (.inl ⟨rfl, (Option.some.inj hi).symm⟩)⟩
      · refine ⟨i, (hholder hr i).mpr (.inr ⟨?_, heq, hi⟩)⟩
        rintro rfl
        rw [hnone] at hi
        cases hi
  refine ⟨h.nodup, fun r => by rw [hheld, h.mem], fun i i' r hr hi hi' => ?_,
    fun r hr => h.apart r ((hheld r).mp hr)⟩
  rcases (hholder hr i).mp hi with ⟨rfl, rfl⟩ | ⟨-, hiOther, hiOld⟩
  · rcases (hholder hr i').mp hi' with ⟨rfl, -⟩ | ⟨-, hiOther, hiOld⟩
    · rfl
    · exact absurd (h.unique i' other r hr hiOld hother) hiOther
  · rcases (hholder hr i').mp hi' with ⟨rfl, rfl⟩ | ⟨-, -, hiOld'⟩
    · exact absurd (h.unique i other r hr hiOld hother) hiOther
    · exact h.unique i i' r hr hiOld hiOld'

/-- A new factory registers its range, or it is disabled. -/
theorem Registered.construct (h : Registered others s) (hnone : s.factories id = none)
    (range : Range) (name : Name) :
    Registered others ⟨(construct s.table range name).1,
      Function.update s.factories id (some (construct s.table range name).2)⟩ := by
  unfold TokenTable.construct
  split_ifs with hcount
  · cases htable : register s.table range name with
    | none => exact h.disabled hnone rfl
    | some table =>
      unfold register at htable
      split_ifs at htable with hroom
      obtain rfl := Option.some.inj htable
      have hnew : range ∉ ranges s.table := by
        intro hmem
        obtain ⟨entry, hentry, hrange⟩ := List.mem_map.mp hmem
        exact findByRange_eq_none.mp hroom.2 entry hentry hrange
      have hranges : ranges (s.table ++ [⟨range, name⟩]) = ranges s.table ++ [range] := by
        simp [ranges]
      have hheld (r : Range) : Held (Function.update s.factories id (some range)) r ↔
          Held s.factories r ∨ r = range := by
        constructor
        · rintro ⟨hr, i, hi⟩
          by_cases heq : i = id
          · subst heq
            rw [Function.update_self] at hi
            exact .inr (Option.some.inj hi).symm
          · rw [Function.update_of_ne heq] at hi
            exact .inl ⟨hr, i, hi⟩
        · rintro (⟨hr, i, hi⟩ | rfl)
          · refine ⟨hr, i, ?_⟩
            rw [Function.update_of_ne, hi]
            rintro rfl
            rw [hnone] at hi
            cases hi
          · exact ⟨hcount, id, Function.update_self ..⟩
      have hold {i : ℕ} {r : Range}
          (hi : Function.update s.factories id (some range) i = some r) :
          (i = id ∧ r = range) ∨ (s.factories i = some r ∧ i ≠ id) := by
        by_cases heq : i = id
        · subst heq
          rw [Function.update_self] at hi
          exact .inl ⟨rfl, (Option.some.inj hi).symm⟩
        · rw [Function.update_of_ne heq] at hi
          exact .inr ⟨hi, heq⟩
      have hfree {i : ℕ} (hi : s.factories i = some range) : False :=
        hnew ((h.mem range).mpr (.inr ⟨hcount, i, hi⟩))
      refine ⟨?_, fun r => ?_, fun i i' r hr hi hi' => ?_, fun r hr => ?_⟩
      · rw [hranges]
        exact List.nodup_append.mpr ⟨h.nodup, List.nodup_singleton _, fun a ha b hb heq =>
          hnew (List.mem_singleton.mp hb ▸ heq ▸ ha)⟩
      · rw [hranges, hheld, List.mem_append, List.mem_singleton, h.mem, or_assoc]
      · rcases hold hi with ⟨rfl, rfl⟩ | ⟨hiOld, -⟩
        · rcases hold hi' with ⟨rfl, -⟩ | ⟨hiOld, -⟩
          · rfl
          · exact (hfree hiOld).elim
        · rcases hold hi' with ⟨rfl, rfl⟩ | ⟨hiOld', -⟩
          · exact (hfree hiOld).elim
          · exact h.unique i i' r hr hiOld hiOld'
      · rcases (hheld r).mp hr with hr | rfl
        · exact h.apart r hr
        · exact fun hmem => hnew ((h.mem r).mpr (.inl hmem))
  · exact h.disabled hnone (by simpa using hcount)

/-- Every action on living factories succeeds, and keeps the registry exact. -/
theorem Registered.step (h : Registered others s) {action : Action Name} (lives : Lives s action) :
    ∃ s', step s action = .ok s' ∧ Registered others s' := by
  cases action with
  | construct id range name => exact ⟨_, rfl, h.construct lives range name⟩
  | moveConstruct id other =>
    obtain ⟨hnone, hsome⟩ := lives
    obtain ⟨range, hother⟩ := Option.isSome_iff_exists.mp hsome
    exact ⟨_, by simp only [TokenTable.step, hother], h.take hnone hother⟩
  | moveAssign id other =>
    obtain ⟨hsome, hsome'⟩ := lives
    obtain ⟨old, hid⟩ := Option.isSome_iff_exists.mp hsome
    obtain ⟨range, hother⟩ := Option.isSome_iff_exists.mp hsome'
    obtain ⟨table, htable, hreleased⟩ := h.release hid
    refine ⟨⟨table, TokenTable.take s.factories id other range⟩, by
      simp only [TokenTable.step, hid, hother, htable], ?_⟩
    by_cases heq : id = other
    · -- a factory that is assigned to itself ends up disabled
      subst heq
      have hlast := hreleased.disabled (Function.update_self ..)
        (show ({ range with count := 0 } : Range).count = 0 from rfl)
      simpa only [TokenTable.take, Function.update_idem] using hlast
    · have htaken := hreleased.take (Function.update_self ..)
        (show Function.update s.factories id none other = some range by
          rw [Function.update_of_ne (Ne.symm heq), hother])
      simpa only [TokenTable.take, Function.update_idem] using htaken
  | destroy id =>
    obtain ⟨old, hid⟩ := Option.isSome_iff_exists.mp lives
    obtain ⟨table, htable, hreleased⟩ := h.release hid
    exact ⟨_, by simp only [TokenTable.step, hid, htable], hreleased⟩

end Fimbulwinter.TokenTable
