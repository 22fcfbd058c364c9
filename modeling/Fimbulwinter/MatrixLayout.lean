import Mathlib.Data.Matrix.Mul
import Mathlib.Data.Matrix.Basic
import Mathlib.Data.List.FinRange
import Mathlib.Algebra.BigOperators.Fin
import Mathlib.Algebra.Group.Nat.Defs

/-! # `core::maths::Matrix`

The transposition of the arguments by a sequence of indices, and the loops of the products; the
numbers are of a semiring. -/
namespace Fimbulwinter.MatrixLayout

/-! ## The sequence of the transposition -/

/-- `make_index_sequence` -/
def makeIndexSequence : ℕ → List ℕ
  | 0 => []
  | 1 => [0]
  | n + 2 => makeIndexSequence ((n + 2) / 2) ++
      (makeIndexSequence (n + 2 - (n + 2) / 2)).map (· + (n + 2) / 2)

/-- `make_transpose_sequence` -/
def makeTransposeSequence (R C : ℕ) : List ℕ :=
  ((makeIndexSequence (R * C - 1)).map (· * R)).map (· % (R * C - 1)) ++ [R * C - 1]

theorem makeIndexSequence_eq (n : ℕ) : makeIndexSequence n = List.range n := by
  induction n using makeIndexSequence.induct with
  | case1 => rw [makeIndexSequence, List.range_zero]
  | case2 => rw [makeIndexSequence, List.range_one]
  | case3 n ihl ihr =>
    have hadd : (n + 2) / 2 + (n + 2 - (n + 2) / 2) = n + 2 :=
      Nat.add_sub_of_le (Nat.div_le_self _ _)
    have hrange := @List.range_add ((n + 2) / 2) (n + 2 - (n + 2) / 2)
    rw [hadd] at hrange
    rw [makeIndexSequence, ihl, ihr, hrange]
    simp only [Nat.add_comm]

variable {M N K L : ℕ}

theorem length_makeTransposeSequence (R C : ℕ) :
    (makeTransposeSequence R C).length = R * C - 1 + 1 := by
  rw [makeTransposeSequence, makeIndexSequence_eq]
  simp

theorem getElem_makeTransposeSequence {R C i : ℕ} (hi : i < (makeTransposeSequence R C).length) :
    (makeTransposeSequence R C)[i] =
      if i < R * C - 1 then i * R % (R * C - 1) else R * C - 1 := by
  simp only [makeTransposeSequence, makeIndexSequence_eq]
  rw [List.getElem_append]
  simp

/-- A row and a column are the last ones exactly when the index is the last one. -/
theorem index_eq_last {r c : ℕ} (hr : r < M) (hc : c < N) :
    r + c * M + 1 = M * N ↔ r + 1 = M ∧ c + 1 = N := by
  constructor
  · intro h
    have hrow : r + 1 = M := by
      have hdvd : M ∣ r + 1 := by
        refine (Nat.dvd_add_left (Nat.dvd_mul_left M c)).mp ⟨N, ?_⟩
        rw [← h]
        ac_rfl
      exact le_antisymm hr (Nat.le_of_dvd r.succ_pos hdvd)
    refine ⟨hrow, Nat.eq_of_mul_eq_mul_left (Nat.zero_lt_of_lt hr) (?_ : M * (c + 1) = M * N)⟩
    rw [← h, Nat.mul_succ, Nat.mul_comm c M]
    omega
  · rintro ⟨rfl, rfl⟩
    ring

theorem index_lt {r c : ℕ} (hr : r < M) (hc : c < N) : r + c * M < M * N := by
  have hle : (c + 1) * M ≤ N * M := Nat.mul_le_mul_right M hc
  rw [Nat.succ_mul] at hle
  rw [Nat.mul_comm M N]
  exact Nat.lt_of_lt_of_le (by omega) hle

/-- The sequence walks the rows of the arguments where the values walk the columns. -/
theorem makeTransposeSequence_index {r c : ℕ} (hr : r < M) (hc : c < N)
    (hi : r + c * M < (makeTransposeSequence N M).length) :
    (makeTransposeSequence N M)[r + c * M] = r * N + c := by
  have hlt := index_lt hr hc
  have hlt' := index_lt hc hr
  have hlast := index_eq_last hr hc
  have hlast' := index_eq_last hc hr
  rw [Nat.mul_comm M N] at hlt hlast
  rw [getElem_makeTransposeSequence]
  split
  next h =>
    have hne : ¬ (r + 1 = M ∧ c + 1 = N) := fun hboth => by
      have := hlast.mpr hboth
      omega
    have hne' : ¬ (c + r * N + 1 = N * M) := fun heq => hne (hlast'.mp heq).symm
    have hstride : (r + c * M) * N = r * N + c + c * (N * M - 1) := by
      obtain ⟨k, hk⟩ : ∃ k, N * M = k + 1 := ⟨N * M - 1, by omega⟩
      rw [hk, Nat.add_sub_cancel, Nat.add_mul, Nat.mul_assoc, Nat.mul_comm M N, hk, Nat.mul_succ]
      omega
    rw [hstride, Nat.add_mul_mod_self_right, Nat.mod_eq_of_lt (by omega)]
  next h =>
    have hboth := hlast.mp (by omega)
    have := hlast'.mpr hboth.symm
    omega

theorem makeTransposeSequence_lt {R C i : ℕ} (hpos : 0 < R * C)
    (hi : i < (makeTransposeSequence R C).length) : (makeTransposeSequence R C)[i] < R * C := by
  rw [getElem_makeTransposeSequence]
  split
  · exact (Nat.mod_lt _ (by omega)).trans_le (Nat.sub_le _ _)
  · omega

/-! ## Matrices -/

variable {T : Type*}

/-- `Matrix<M, N, T>` -/
structure MatrixValues (M N : ℕ) (T : Type*) where
  values : Fin (M * N) → T

/-- `utl::shuffle` -/
def shuffle {n : ℕ} (array : Fin n → T) (is : List ℕ) (hlen : n ≤ is.length)
    (his : ∀ (i : Fin n) (hi : i < is.length), is[i] < n) (i : Fin n) : T :=
  array ⟨is.get ⟨i, i.isLt.trans_le hlen⟩, his i (i.isLt.trans_le hlen)⟩

/-- `utl::transpose<T, N, M>` -/
def transpose (M N : ℕ) (array : Fin (M * N) → T) : Fin (M * N) → T :=
  shuffle array (makeTransposeSequence N M)
    (by
      rw [length_makeTransposeSequence, Nat.mul_comm]
      omega)
    fun i hi => (makeTransposeSequence_lt (Nat.mul_comm M N ▸ i.pos) hi).trans_eq
      (Nat.mul_comm N M)

namespace MatrixValues

/-- The constructor of the arguments. -/
def make (ps : Fin (M * N) → T) : MatrixValues M N T := ⟨transpose M N ps⟩

def set (_ : MatrixValues M N T) (ps : Fin (M * N) → T) : MatrixValues M N T :=
  ⟨transpose M N ps⟩

/-- `row + column * M` -/
def index (row : Fin M) (column : Fin N) : Fin (M * N) :=
  ⟨row + column * M, index_lt row.isLt column.isLt⟩

/-- `get_column<I>` -/
def getColumn (m : MatrixValues M N T) (I : Fin N) (i : Fin M) : T :=
  m.values ⟨i + (I * M + 0), index_lt i.isLt I.isLt⟩

/-- `set_column` -/
def setColumn (m : MatrixValues M N T) (c : Fin N) (v : Fin M → T) : MatrixValues M N T :=
  ⟨(List.finRange M).foldl (fun values (i : Fin M) => Function.update values
    ⟨M * c + i, (Nat.add_comm _ _).trans_lt (Nat.mul_comm M c ▸ index_lt i.isLt c.isLt)⟩ (v i))
    m.values⟩

section products
variable [Mul T] [Add T] [Zero T]

/-- `operator *` of two matrices; the values of `product` are not initialized. -/
def mul (product : MatrixValues M K T) (a : MatrixValues M N T) (b : MatrixValues N K T) :
    MatrixValues M K T :=
  ⟨(List.finRange K).foldl (fun values column => (List.finRange M).foldl (fun values row =>
    Function.update values (index row column)
      ((List.finRange N).foldl (fun dot i =>
        dot + a.values (index row i) * b.values (index i column)) 0)) values) product.values⟩

/-- `operator *=` -/
def mulAssign (product : MatrixValues M N T) (a : MatrixValues M N T) (b : MatrixValues N N T) :
    MatrixValues M N T := mul product a b

/-- `operator *` of a matrix and a vector -/
def mulVec (product : Fin M → T) (a : MatrixValues M N T) (v : Fin N → T) : Fin M → T :=
  (List.finRange M).foldl (fun values row => Function.update values row
    ((List.finRange N).foldl (fun dot i => dot + a.values (index row i) * v i) 0)) product

end products

section identity
variable [Zero T] [One T]

/-- `Matrix<2, 2, T>::identity` -/
def identity2 : MatrixValues 2 2 T :=
  make ![1, 0,
    0, 1]

/-- `Matrix<4, 4, T>::identity` -/
def identity4 : MatrixValues 4 4 T :=
  make ![1, 0, 0, 0,
    0, 1, 0, 0,
    0, 0, 1, 0,
    0, 0, 0, 1]

/-- The arguments are a one on the diagonal. -/
def identity (M : ℕ) : MatrixValues M M T := make fun k => if k.val / M = k.val % M then 1 else 0

end identity

/-! ## The layout -/

theorem index_injective {r r' : Fin M} {c c' : Fin N} (h : index r c = index r' c') :
    r = r' ∧ c = c' := by
  have hval : r.val + c * M = r' + c' * M := congrArg Fin.val h
  have hrow := congrArg (· % M) hval
  have hcolumn := congrArg (· / M) hval
  simp only [Nat.add_mul_mod_self_right, Nat.mod_eq_of_lt r.isLt, Nat.mod_eq_of_lt r'.isLt] at hrow
  simp only [Nat.add_mul_div_right _ _ r.pos, Nat.div_eq_of_lt r.isLt, Nat.div_eq_of_lt r'.isLt,
    Nat.zero_add] at hcolumn
  exact ⟨Fin.ext hrow, Fin.ext hcolumn⟩

/-- Every value is of one row and one column. -/
theorem index_surjective (k : Fin (M * N)) : ∃ r c, index r c = k := by
  have hpos : 0 < M := Nat.pos_of_mul_pos_right k.pos
  refine ⟨⟨k % M, Nat.mod_lt _ hpos⟩, ⟨k / M, Nat.div_lt_of_lt_mul k.isLt⟩, Fin.ext ?_⟩
  exact (congrArg (k.val % M + ·) (Nat.mul_comm _ _)).trans (Nat.mod_add_div k.val M)

theorem make_index (ps : Fin (M * N) → T) (r : Fin M) (c : Fin N) :
    (make ps).values (index r c) =
      ps ⟨r * N + c, (Nat.add_comm _ _).trans_lt
        ((index_lt c.isLt r.isLt).trans_eq (Nat.mul_comm N M))⟩ :=
  congrArg ps (Fin.ext (makeTransposeSequence_index r.isLt c.isLt _))

theorem foldl_update_of_notMem {ι κ : Type*} [DecidableEq κ] (e : ι → κ) (f : ι → T) (l : List ι)
    (values : κ → T) {k : κ} (hk : ∀ i ∈ l, e i ≠ k) :
    l.foldl (fun values i => Function.update values (e i) (f i)) values k = values k := by
  induction l generalizing values with
  | nil => rfl
  | cons i l ih =>
    rw [List.foldl_cons, ih _ fun j hj => hk j (List.mem_cons_of_mem i hj),
      Function.update_of_ne (hk i List.mem_cons_self).symm]

/-- A loop that assigns to different places assigns each one. -/
theorem foldl_update_of_mem {ι κ : Type*} [DecidableEq ι] [DecidableEq κ] {e : ι → κ}
    (he : Function.Injective e) (f : ι → T) (l : List ι) (values : κ → T) {i : ι} (hi : i ∈ l) :
    l.foldl (fun values i => Function.update values (e i) (f i)) values (e i) = f i := by
  induction l generalizing values with
  | nil => exact absurd hi List.not_mem_nil
  | cons j l ih =>
    rw [List.foldl_cons]
    by_cases hmem : i ∈ l
    · exact ih _ hmem
    · obtain rfl : i = j := (List.mem_cons.mp hi).resolve_right hmem
      have hne : ∀ j ∈ l, e j ≠ e i := fun j hj heq => hmem (he heq ▸ hj)
      rw [foldl_update_of_notMem e f l _ hne, Function.update_self]

theorem setColumn_index (m : MatrixValues M N T) (c : Fin N) (v : Fin M → T) (r : Fin M)
    (c' : Fin N) :
    (m.setColumn c v).values (index r c') = if c' = c then v r else m.values (index r c') := by
  have hplace (i : Fin M) : (⟨M * c + i, (Nat.add_comm _ _).trans_lt
      (Nat.mul_comm M c ▸ index_lt i.isLt c.isLt)⟩ : Fin (M * N)) = index i c :=
    Fin.ext ((Nat.add_comm _ _).trans (congrArg (i.val + ·) (Nat.mul_comm M c)))
  unfold setColumn
  simp only [hplace]
  split
  next h =>
    rw [h]
    exact foldl_update_of_mem (e := (index · c)) (fun _ _ h => (index_injective h).1) v _ _
      (List.mem_finRange r)
  next h => exact foldl_update_of_notMem (index · c) v _ _ fun i _ heq => h (index_injective heq).2.symm

/-! ## The products -/

section products
variable [NonUnitalNonAssocSemiring T]

theorem foldl_add_eq_sum (f : Fin N → T) :
    (List.finRange N).foldl (fun dot i => dot + f i) 0 = ∑ i, f i := by
  rw [Fin.sum_univ_def, List.sum_eq_foldl, List.foldl_map]

theorem mul_index (product : MatrixValues M K T) (a : MatrixValues M N T) (b : MatrixValues N K T)
    (r : Fin M) (c : Fin K) :
    (mul product a b).values (index r c) =
      ∑ i, a.values (index r i) * b.values (index i c) := by
  -- the two loops are one over the places, column after column
  have hloop : (mul product a b).values =
      ((List.finRange K).flatMap fun column => (List.finRange M).map (Prod.mk column)).foldl
        (fun values place => Function.update values (index place.2 place.1)
          (∑ i, a.values (index place.2 i) * b.values (index i place.1))) product.values := by
    rw [List.foldl_flatMap]
    simp only [mul, foldl_add_eq_sum, List.foldl_map]
  rw [hloop]
  exact foldl_update_of_mem (e := fun place : Fin K × Fin M => index place.2 place.1)
    (fun _ _ h => Prod.ext (index_injective h).2 (index_injective h).1)
    (fun place => ∑ i, a.values (index place.2 i) * b.values (index i place.1)) _ _ (i := (c, r))
    (List.mem_flatMap.mpr ⟨c, List.mem_finRange c, List.mem_map.mpr ⟨r, List.mem_finRange r, rfl⟩⟩)

theorem mulVec_apply (product : Fin M → T) (a : MatrixValues M N T) (v : Fin N → T) (r : Fin M) :
    mulVec product a v r = ∑ i, a.values (index r i) * v i := by
  simp only [mulVec, foldl_add_eq_sum]
  exact foldl_update_of_mem (e := id) Function.injective_id
    (fun row => ∑ i, a.values (index row i) * v i) _ _ (List.mem_finRange r)

end products

/-- The matrix that the values stand for. -/
def toMatrix (m : MatrixValues M N T) : Matrix (Fin M) (Fin N) T :=
  Matrix.of fun r c => m.values (index r c)

theorem toMatrix_injective {m m' : MatrixValues M N T} (h : toMatrix m = toMatrix m') : m = m' := by
  have hvalues : m.values = m'.values := funext fun k => by
    obtain ⟨r, c, rfl⟩ := index_surjective k
    exact congrFun (congrFun h r) c
  cases m
  exact congrArg MatrixValues.mk hvalues

theorem toMatrix_mul [NonUnitalNonAssocSemiring T] (product : MatrixValues M K T)
    (a : MatrixValues M N T) (b : MatrixValues N K T) :
    toMatrix (mul product a b) = toMatrix a * toMatrix b :=
  Matrix.ext fun r c => mul_index product a b r c

theorem mulVec_eq [NonUnitalNonAssocSemiring T] (product : Fin M → T) (a : MatrixValues M N T)
    (v : Fin N → T) : mulVec product a v = (toMatrix a).mulVec v :=
  funext fun r => mulVec_apply product a v r

theorem toMatrix_identity [Semiring T] : toMatrix (identity M : MatrixValues M M T) = 1 := by
  refine Matrix.ext fun r c => ?_
  have hdiv : (r * M + c.val) / M = r := by
    rw [Nat.add_comm, Nat.add_mul_div_right _ _ r.pos, Nat.div_eq_of_lt c.isLt, Nat.zero_add]
  have hmod : (r * M + c.val) % M = c := by
    rw [Nat.add_comm, Nat.add_mul_mod_self_right, Nat.mod_eq_of_lt c.isLt]
  rw [Matrix.one_apply, toMatrix, Matrix.of_apply, identity, make_index]
  simp only [hdiv, hmod, Fin.ext_iff]

theorem identity2_eq [Zero T] [One T] : (identity2 : MatrixValues 2 2 T) = identity 2 := by
  refine congrArg make (funext fun k => ?_)
  fin_cases k <;> rfl

theorem identity4_eq [Zero T] [One T] : (identity4 : MatrixValues 4 4 T) = identity 4 := by
  refine congrArg make (funext fun k => ?_)
  fin_cases k <;> rfl

end MatrixValues

open MatrixValues

/-- An argument lies at its row and its column, where the columns are got and set; the products are
the sums over that layout, so that they are associative and the identity is neutral. What a product
was before does not matter. -/
theorem values_layout [Semiring T] (M N K L : ℕ) :
    (∀ (ps : Fin (M * N) → T) (m : MatrixValues M N T) (r : Fin M) (c : Fin N)
      (k : Fin (M * N)), k.val = r * N + c →
        (make ps).values (index r c) = ps k ∧ (m.set ps).values (index r c) = ps k ∧
          (make ps).getColumn c r = ps k) ∧
      (∀ (m : MatrixValues M N T) (c : Fin N),
        (∀ r, m.getColumn c r = m.values (index r c)) ∧
          ∀ v r c', (m.setColumn c v).values (index r c') =
            if c' = c then v r else m.values (index r c')) ∧
      (∀ k : Fin (M * N), ∃ (r : Fin M) (c : Fin N), index r c = k) ∧
      (∀ (product : MatrixValues M K T) (a : MatrixValues M N T) (b : MatrixValues N K T) r c,
        (mul product a b).values (index r c) =
          ∑ i, a.values (index r i) * b.values (index i c)) ∧
      (∀ (product : Fin M → T) (a : MatrixValues M N T) (v : Fin N → T) r,
        mulVec product a v r = ∑ i, a.values (index r i) * v i) ∧
      (∀ (a : MatrixValues M N T) (b : MatrixValues N K T) (c : MatrixValues K L T) p₁ p₂ p₃ p₄,
        mul p₁ (mul p₂ a b) c = mul p₃ a (mul p₄ b c)) ∧
      (∀ (a : MatrixValues M N T) (b : MatrixValues N K T) (v : Fin K → T) p₁ p₂ p₃ p₄,
        mulVec p₁ (mul p₂ a b) v = mulVec p₃ a (mulVec p₄ b v)) ∧
      (∀ (a : MatrixValues M N T) product,
        mul product a (identity N) = a ∧ mul product (identity M) a = a) ∧
      (∀ (v : Fin M → T) product, mulVec product (identity M) v = v) ∧
      (identity2 : MatrixValues 2 2 T) = identity 2 ∧
      (identity4 : MatrixValues 4 4 T) = identity 4 := by
  refine ⟨fun ps m r c k hk => ?_, fun m c => ⟨fun _ => rfl, fun v r c' => setColumn_index m c v r c'⟩,
    index_surjective, mul_index, mulVec_apply, fun a b c p₁ p₂ p₃ p₄ => ?_,
    fun a b v p₁ p₂ p₃ p₄ => ?_, fun a product => ⟨?_, ?_⟩, fun v product => ?_, identity2_eq,
    identity4_eq⟩
  · have hmake : (make ps).values (index r c) = ps k :=
      (make_index ps r c).trans (congrArg ps (Fin.ext hk.symm))
    exact ⟨hmake, hmake, hmake⟩
  · refine toMatrix_injective ?_
    rw [toMatrix_mul, toMatrix_mul, toMatrix_mul, toMatrix_mul, Matrix.mul_assoc]
  · rw [mulVec_eq, mulVec_eq, mulVec_eq, toMatrix_mul, Matrix.mulVec_mulVec]
  · refine toMatrix_injective ?_
    rw [toMatrix_mul, toMatrix_identity, Matrix.mul_one]
  · refine toMatrix_injective ?_
    rw [toMatrix_mul, toMatrix_identity, Matrix.one_mul]
  · rw [mulVec_eq, toMatrix_identity, Matrix.one_mulVec]

end Fimbulwinter.MatrixLayout
