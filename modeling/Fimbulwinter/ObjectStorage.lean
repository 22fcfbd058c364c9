import Mathlib.Data.List.Nodup
import Mathlib.Logic.Function.Basic

/-! # Storage for objects

Raw storage in which objects are constructed and destructed one by one. Constructing
over an object, and reading or destructing where there is none, is misuse. -/
namespace Fimbulwinter

/-- What must not be done to storage. -/
inductive Misuse
  /-- An object is constructed where there is one already. -/
  | constructOver
  /-- An object is read where there is none. -/
  | readRaw
  /-- An object is destructed where there is none. -/
  | destructRaw
  /-- Storage is used after it has been released. -/
  | released
  deriving DecidableEq, Repr

/-- Objects by the index of their slots. -/
abbrev ObjectStorage (I α : Type*) := I → Option α

namespace ObjectStorage

variable {I α : Type*} [DecidableEq I]

/-- Storage without objects. -/
def raw : ObjectStorage I α := fun _ => none

/-- `construct_at` -/
def construct (m : ObjectStorage I α) (i : I) (x : α) : Except Misuse (ObjectStorage I α) :=
  match m i with
  | none => .ok (Function.update m i (some x))
  | some _ => .error .constructOver

/-- The object in a slot, which stays there. -/
def read (m : ObjectStorage I α) (i : I) : Except Misuse α :=
  match m i with
  | none => .error .readRaw
  | some x => .ok x

/-- `destruct_at` -/
def destruct (m : ObjectStorage I α) (i : I) : Except Misuse (ObjectStorage I α) :=
  match m i with
  | none => .error .destructRaw
  | some _ => .ok (Function.update m i none)

/-- Objects are constructed from those at the same indices of other storage. -/
def moveAll (source m : ObjectStorage I α) : List I → Except Misuse (ObjectStorage I α)
  | [] => .ok m
  | i :: is =>
    match source.read i with
    | .error e => .error e
    | .ok x =>
      match m.construct i x with
      | .error e => .error e
      | .ok m => moveAll source m is

def destructAll (m : ObjectStorage I α) : List I → Except Misuse (ObjectStorage I α)
  | [] => .ok m
  | i :: is =>
    match m.destruct i with
    | .error e => .error e
    | .ok m => destructAll m is

section

variable {m : ObjectStorage I α} {i : I} {x : α}

theorem construct_of_raw (x : α) (h : m i = none) :
    m.construct i x = .ok (Function.update m i (some x)) := by
  rw [construct, h]

omit [DecidableEq I] in
theorem read_of_some (h : m i = some x) : m.read i = .ok x := by
  rw [read, h]

theorem destruct_of_some (h : m i = some x) : m.destruct i = .ok (Function.update m i none) := by
  rw [destruct, h]

end

variable {source m : ObjectStorage I α} {is : List I}

/-- Objects at different indices are moved into raw storage, each to its own index. -/
theorem moveAll_ok (hnodup : is.Nodup) (hsource : ∀ i ∈ is, (source i).isSome)
    (hraw : ∀ i ∈ is, m i = none) :
    moveAll source m is = .ok fun i => if i ∈ is then source i else m i := by
  induction is generalizing m with
  | nil => simp [moveAll]
  | cons i is ih =>
    obtain ⟨hi, hnodup⟩ := List.nodup_cons.mp hnodup
    obtain ⟨x, hx⟩ := Option.isSome_iff_exists.mp (hsource i List.mem_cons_self)
    have htail : ∀ j ∈ is, Function.update m i (some x) j = none := by
      intro j hj
      rw [Function.update_of_ne (ne_of_mem_of_not_mem hj hi)]
      exact hraw j (List.mem_cons_of_mem _ hj)
    simp only [moveAll, read_of_some hx, construct_of_raw x (hraw i List.mem_cons_self)]
    rw [ih hnodup (fun j hj => hsource j (List.mem_cons_of_mem _ hj)) htail]
    congr 1
    funext j
    by_cases hj : j = i
    · subst hj
      simp [hi, hx]
    · simp [hj]

theorem destructAll_ok (hnodup : is.Nodup) (hobject : ∀ i ∈ is, (m i).isSome) :
    destructAll m is = .ok fun i => if i ∈ is then none else m i := by
  induction is generalizing m with
  | nil => simp [destructAll]
  | cons i is ih =>
    obtain ⟨hi, hnodup⟩ := List.nodup_cons.mp hnodup
    obtain ⟨x, hx⟩ := Option.isSome_iff_exists.mp (hobject i List.mem_cons_self)
    have htail : ∀ j ∈ is, (Function.update m i none j).isSome := by
      intro j hj
      rw [Function.update_of_ne (ne_of_mem_of_not_mem hj hi)]
      exact hobject j (List.mem_cons_of_mem _ hj)
    simp only [destructAll, destruct_of_some hx]
    rw [ih hnodup htail]
    congr 1
    funext j
    by_cases hj : j = i
    · subst hj
      simp
    · simp [hj]

end ObjectStorage

end Fimbulwinter
