import Mathlib.Data.List.Basic
import Mathlib.Data.List.Perm.Basic

/-! # `ext::remove_if` and `ext::remove_copy_if`

A cursor that goes forward and one that comes back; a cell that was moved from is not read. -/
namespace Fimbulwinter.RemovePartition
variable {α : Type*}

/-- The cells of the range, what the output has got, and the elements that were tested with their
places. -/
structure Run (α : Type*) where
  cells : List (Option α)
  output : List α
  tested : List (α × ℕ)

namespace Run

/-- `predicate(*it)` -/
def test (predicate : α → Bool) (s : Run α) (it : ℕ) : Option (Bool × Run α) :=
  match s.cells[it]? with
  | some (some x) => some (predicate x, { s with tested := s.tested ++ [(x, it)] })
  | _ => none

/-- `utility::iter_move` -/
def iterMove (s : Run α) (it : ℕ) : Option (α × Run α) :=
  match s.cells[it]? with
  | some (some x) => some (x, { s with cells := s.cells.set it none })
  | _ => none

/-- `*to++ = iter_move(it)`, of `remove_copy_if` only. -/
def moveOut (copy : Bool) (s : Run α) (it : ℕ) : Option (Run α) :=
  if copy then (s.iterMove it).map fun r => { r.2 with output := r.2.output ++ [r.1] } else some s

/-- `*begin = iter_move(end)` -/
def moveBack (s : Run α) (first last : ℕ) : Option (Run α) :=
  (s.iterMove last).map fun r => { r.2 with cells := r.2.cells.set first (some r.1) }

end Run

mutual

/-- The outer loop, from the place of `begin` and the distance to `end`. -/
def loop (predicate : α → Bool) (copy : Bool) (s : Run α) (first : ℕ) : ℕ → Option (ℕ × Run α)
  | 0 => some (first, s)
  | n + 1 => (s.test predicate first).bind fun r =>
    if r.1 then
      (r.2.moveOut copy first).bind fun s => back predicate copy s first n
    else
      loop predicate copy r.2 (first + 1) n

/-- The inner loop, where `n` is the distance to `--end`. -/
def back (predicate : α → Bool) (copy : Bool) (s : Run α) (first : ℕ) : ℕ → Option (ℕ × Run α)
  | 0 => some (first, s)
  | n + 1 => (s.test predicate (first + (n + 1))).bind fun r =>
    if r.1 then
      (r.2.moveOut copy (first + (n + 1))).bind fun s => back predicate copy s first n
    else
      (r.2.moveBack first (first + (n + 1))).bind fun s => loop predicate copy s (first + 1) n

end

def Run.ofRange (xs : List α) : Run α := ⟨xs.map some, [], []⟩

/-- `remove_if` -/
def removeIf (predicate : α → Bool) (xs : List α) : Option (ℕ × Run α) :=
  loop predicate false (.ofRange xs) 0 xs.length

/-- `remove_copy_if` -/
def removeCopyIf (predicate : α → Bool) (xs : List α) : Option (ℕ × Run α) :=
  loop predicate true (.ofRange xs) 0 xs.length

/-! ## One step -/

theorem Run.test_eq (predicate : α → Bool) {s : Run α} {it : ℕ} {x : α}
    (hx : s.cells[it]? = some (some x)) :
    s.test predicate it = some (predicate x, { s with tested := s.tested ++ [(x, it)] }) := by
  rw [Run.test, hx]

theorem Run.iterMove_eq {s : Run α} {it : ℕ} {x : α} (hx : s.cells[it]? = some (some x)) :
    s.iterMove it = some (x, { s with cells := s.cells.set it none }) := by
  rw [Run.iterMove, hx]

/-- Only the cell that is moved out changes, and only the output gets something. -/
theorem Run.moveOut_eq (copy : Bool) {s : Run α} {x : α} {before after : List (Option α)}
    (hs : s.cells = before ++ some x :: after) : ∃ c,
    s.moveOut copy before.length = some
      ⟨before ++ c :: after, s.output ++ (if copy then [x] else []), s.tested⟩ := by
  have hx : s.cells[before.length]? = some (some x) := by
    rw [hs, List.getElem?_append_right (Nat.le_refl _), Nat.sub_self, List.getElem?_cons_zero]
  cases copy with
  | false => exact ⟨some x, by rw [← hs, if_neg Bool.false_ne_true, List.append_nil]; rfl⟩
  | true =>
    refine ⟨none, ?_⟩
    rw [Run.moveOut, if_pos rfl, Run.iterMove_eq hx, hs, List.set_append_right _ _ (Nat.le_refl _), Nat.sub_self]
    rfl

/-- The last cell takes the place of the first one. -/
theorem Run.moveBack_eq {s : Run α} {c : Option α} {x : α} {before after : List (Option α)}
    (mid : List (Option α)) (hs : s.cells = before ++ c :: (mid ++ some x :: after)) :
    s.moveBack before.length (before.length + (mid.length + 1)) =
      some { s with cells := before ++ some x :: (mid ++ none :: after) } := by
  have hx : s.cells[before.length + (mid.length + 1)]? = some (some x) := by
    rw [hs, List.getElem?_append_right (Nat.le_add_right _ _), Nat.add_sub_cancel_left,
      List.getElem?_cons_succ, List.getElem?_append_right (Nat.le_refl _), Nat.sub_self,
      List.getElem?_cons_zero]
  rw [Run.moveBack, Run.iterMove_eq hx, hs, List.set_append_right _ _ (Nat.le_add_right _ _),
    Nat.add_sub_cancel_left, List.set_cons_succ, List.set_append_right _ _ (Nat.le_refl _), Nat.sub_self,
    List.set_cons_zero, Option.map_some, List.set_append_right _ _ (Nat.le_refl _), Nat.sub_self]
  rfl

/-! ## The loops -/

/-- What the loops make of the elements `mid`, which were at `places`, behind the kept ones `pre`. -/
def Partitions (predicate : α → Bool) (copy : Bool) (pre mid : List α) (places : List (α × ℕ))
    (s : Run α) (r : Option (ℕ × Run α)) : Prop :=
  ∃ kept removed tests rest t,
    r = some (pre.length + kept.length, t) ∧
      t.cells = (pre ++ kept).map some ++ rest ∧ t.cells.length = s.cells.length ∧
      kept.Perm (mid.filter fun x => !predicate x) ∧ removed.Perm (mid.filter predicate) ∧
      t.output = s.output ++ (if copy then removed else []) ∧
      t.tested = s.tested ++ tests ∧ tests.Perm places

variable {predicate : α → Bool} {copy : Bool} {pre mid xs : List α} {places ps : List (α × ℕ)}
  {s t : Run α} {r : Option (ℕ × Run α)} {x : α} {it : ℕ}

theorem Partitions.keep (h : Partitions predicate copy (pre ++ [x]) mid places t r)
    (hx : predicate x = false) (hlen : t.cells.length = s.cells.length)
    (hout : t.output = s.output) (htest : t.tested = s.tested ++ [(x, it)])
    (hxs : xs.Perm (x :: mid)) (hps : ps.Perm ((x, it) :: places)) :
    Partitions predicate copy pre xs ps s r := by
  obtain ⟨kept, removed, tests, rest, u, hr, hcells, hlen', hkept, hremoved, hout', htest', htests⟩ := h
  refine ⟨x :: kept, removed, (x, it) :: tests, rest, u, ?_, ?_, hlen'.trans hlen, ?_, ?_, ?_, ?_,
    (htests.cons _).trans hps.symm⟩
  · rw [hr, List.length_append, Nat.add_assoc, List.length_singleton, List.length_cons, Nat.add_comm kept.length]
  · rw [hcells, List.append_assoc]
    rfl
  · have hfilter := hxs.filter fun x => !predicate x
    rw [List.filter_cons_of_pos (by rw [hx]; rfl)] at hfilter
    exact (hkept.cons x).trans hfilter.symm
  · have hfilter := hxs.filter predicate
    rw [List.filter_cons_of_neg (by rw [hx]; exact Bool.false_ne_true)] at hfilter
    exact hremoved.trans hfilter.symm
  · rw [hout', hout]
  · rw [htest', htest, List.append_assoc]
    rfl

theorem Partitions.remove (h : Partitions predicate copy pre mid places t r)
    (hx : predicate x = true) (hlen : t.cells.length = s.cells.length)
    (hout : t.output = s.output ++ (if copy then [x] else []))
    (htest : t.tested = s.tested ++ [(x, it)]) (hxs : xs.Perm (x :: mid))
    (hps : ps.Perm ((x, it) :: places)) : Partitions predicate copy pre xs ps s r := by
  obtain ⟨kept, removed, tests, rest, u, hr, hcells, hlen', hkept, hremoved, hout', htest', htests⟩ := h
  refine ⟨kept, x :: removed, (x, it) :: tests, rest, u, hr, hcells, hlen'.trans hlen, ?_, ?_, ?_,
    ?_, (htests.cons _).trans hps.symm⟩
  · have hfilter := hxs.filter fun x => !predicate x
    rw [List.filter_cons_of_neg (by rw [hx]; exact Bool.false_ne_true)] at hfilter
    exact hkept.trans hfilter.symm
  · have hfilter := hxs.filter predicate
    rw [List.filter_cons_of_pos hx] at hfilter
    exact (hremoved.cons x).trans hfilter.symm
  · rw [hout', hout, List.append_assoc]
    cases copy <;> rfl
  · rw [htest', htest, List.append_assoc]
    rfl

theorem Partitions.nil {rest : List (Option α)} (hs : s.cells = pre.map some ++ rest) :
    Partitions predicate copy pre [] [] s (some (pre.length, s)) := by
  refine ⟨[], [], [], rest, s, rfl, ?_, rfl, .refl _, .refl _, ?_, (List.append_nil _).symm, .refl _⟩
  · rw [List.append_nil]
    exact hs
  · cases copy <;> exact (List.append_nil _).symm

/-- By induction on the distance of the cursors; the inner loop has a free cell at `begin`. -/
theorem loop_partitions (predicate : α → Bool) (copy : Bool) (n : ℕ) :
    (∀ (pre mid : List α) (rest : List (Option α)) (s : Run α),
      s.cells = pre.map some ++ (mid.map some ++ rest) → mid.length = n →
        Partitions predicate copy pre mid (mid.zipIdx pre.length) s
          (loop predicate copy s pre.length n)) ∧
      ∀ (pre mid : List α) (c : Option α) (rest : List (Option α)) (s : Run α),
        s.cells = pre.map some ++ c :: (mid.map some ++ rest) → mid.length = n →
          Partitions predicate copy pre mid (mid.zipIdx (pre.length + 1)) s
            (back predicate copy s pre.length n) := by
  induction n with
  | zero =>
    refine ⟨fun pre mid rest s hs hn => ?_, fun pre mid c rest s hs hn => ?_⟩
    · obtain rfl := List.length_eq_zero_iff.mp hn
      exact .nil hs
    · obtain rfl := List.length_eq_zero_iff.mp hn
      exact .nil hs
  | succ n ih =>
    refine ⟨fun pre mid rest s hs hn => ?_, fun pre mid c rest s hs hn => ?_⟩
    · obtain ⟨x, mid, rfl⟩ := List.exists_cons_of_length_eq_add_one hn
      have hcell : s.cells[pre.length]? = some (some x) := by
        rw [hs, List.getElem?_append_right (by simp), List.length_map, Nat.sub_self]
        rfl
      rw [loop, Run.test_eq predicate hcell, Option.bind_some]
      cases hx : predicate x with
      | true =>
        obtain ⟨c, hmove⟩ := Run.moveOut_eq copy
          (s := { s with tested := s.tested ++ [(x, pre.length)] }) hs
        rw [List.length_map] at hmove
        rw [if_pos rfl, hmove, Option.bind_some]
        exact (ih.2 pre mid c rest _ rfl (Nat.succ.inj hn)).remove hx (by simp [hs]) rfl rfl
          (.refl _) (.refl _)
      | false =>
        have htail := ih.1 (pre ++ [x]) mid rest { s with tested := s.tested ++ [(x, pre.length)] }
          (by rw [hs, List.map_append, List.append_assoc]; rfl) (Nat.succ.inj hn)
        rw [List.length_append] at htail
        exact htail.keep hx rfl rfl rfl (.refl _) (.refl _)
    · obtain rfl | ⟨mid, x, rfl⟩ := List.eq_nil_or_concat' mid
      · exact absurd hn (Nat.succ_ne_zero n).symm
      have hmid : mid.length = n := by
        rw [List.length_append] at hn
        exact Nat.succ.inj hn
      have hs' : s.cells = (pre.map some ++ c :: mid.map some) ++ some x :: rest := by
        simp [hs]
      have hlen : (pre.map some ++ c :: mid.map some).length = pre.length + (n + 1) := by
        simp [hmid]
      have hcell : s.cells[pre.length + (n + 1)]? = some (some x) := by
        rw [hs', List.getElem?_append_right (Nat.le_of_eq hlen), hlen, Nat.sub_self]
        rfl
      have hperm : (mid ++ [x]).Perm (x :: mid) := List.perm_append_singleton x mid
      have hplaces : ((mid ++ [x]).zipIdx (pre.length + 1)).Perm
          ((x, pre.length + (n + 1)) :: mid.zipIdx (pre.length + 1)) := by
        rw [List.zipIdx_append, hmid, Nat.add_assoc, Nat.add_comm 1 n]
        exact List.perm_append_singleton _ _
      rw [back, Run.test_eq predicate hcell, Option.bind_some]
      cases hx : predicate x with
      | true =>
        obtain ⟨d, hmove⟩ := Run.moveOut_eq copy
          (s := { s with tested := s.tested ++ [(x, pre.length + (n + 1))] }) hs'
        rw [hlen] at hmove
        rw [if_pos rfl, hmove, Option.bind_some]
        refine (ih.2 pre mid c (d :: rest) _ ?_ hmid).remove hx ?_ rfl rfl hperm hplaces
        · simp
        · simp [hs']
      | false =>
        have hmove := Run.moveBack_eq (mid.map some)
          (s := { s with tested := s.tested ++ [(x, pre.length + (n + 1))] })
          (hs'.trans (List.append_assoc _ _ _))
        rw [List.length_map, List.length_map, hmid] at hmove
        rw [if_neg Bool.false_ne_true, hmove, Option.bind_some]
        have htail := ih.1 (pre ++ [x]) mid (none :: rest)
          ⟨pre.map some ++ some x :: (mid.map some ++ none :: rest), s.output,
            s.tested ++ [(x, pre.length + (n + 1))]⟩ (by simp) hmid
        rw [List.length_append] at htail
        exact htail.keep hx (by simp [hs']) rfl rfl hperm hplaces

theorem ofRange_partitions (predicate : α → Bool) (copy : Bool) (xs : List α) :
    Partitions predicate copy [] xs xs.zipIdx (.ofRange xs)
      (loop predicate copy (.ofRange xs) 0 xs.length) :=
  (loop_partitions predicate copy xs.length).1 [] xs [] _ (List.append_nil _).symm rfl

/-- The prefix that is returned has the elements that do not satisfy the predicate, and the output
of `remove_copy_if` the others; each element was tested once, at its place. -/
theorem remove_partitions (predicate : α → Bool) (xs : List α) :
    (∃ (kept : List α) (t : Run α), removeIf predicate xs = some (kept.length, t) ∧
      t.cells.length = xs.length ∧ t.cells.take kept.length = kept.map some ∧
      kept.Perm (xs.filter fun x => !predicate x) ∧ t.tested.Perm xs.zipIdx) ∧
    ∃ (kept : List α) (t : Run α), removeCopyIf predicate xs = some (kept.length, t) ∧
      t.cells.length = xs.length ∧ t.cells.take kept.length = kept.map some ∧
      kept.Perm (xs.filter fun x => !predicate x) ∧ t.output.Perm (xs.filter predicate) ∧
      (kept ++ t.output).Perm xs ∧ t.tested.Perm xs.zipIdx := by
  have hrange : (Run.ofRange xs).cells.length = xs.length := List.length_map _
  constructor
  · obtain ⟨kept, removed, tests, rest, t, hr, hcells, hlen, hkept, -, -, htest, htests⟩ :=
      ofRange_partitions predicate false xs
    refine ⟨kept, t, hr.trans (by rw [List.length_nil, Nat.zero_add]), hlen.trans hrange, ?_, hkept,
      ?_⟩
    · rw [hcells, List.nil_append]
      exact List.take_left' (List.length_map _)
    · rw [htest]
      exact htests
  · obtain ⟨kept, removed, tests, rest, t, hr, hcells, hlen, hkept, hremoved, hout, htest, htests⟩ :=
      ofRange_partitions predicate true xs
    have hout' : t.output = removed := hout
    refine ⟨kept, t, hr.trans (by rw [List.length_nil, Nat.zero_add]), hlen.trans hrange, ?_, hkept,
      hout' ▸ hremoved, ?_, ?_⟩
    · rw [hcells, List.nil_append]
      exact List.take_left' (List.length_map _)
    · rw [hout']
      exact ((hkept.append hremoved).trans List.perm_append_comm).trans
        (List.filter_append_perm predicate xs)
    · rw [htest]
      exact htests

example : (removeCopyIf (fun n : ℕ => n % 2 == 1) [1, 2, 3, 4, 6, 7, 8, 9]).map
    (fun r => (r.1, r.2.cells.take 4, r.2.output)) =
      some (4, [some 8, some 2, some 6, some 4], [1, 9, 3, 7]) := by
  decide

end Fimbulwinter.RemovePartition
