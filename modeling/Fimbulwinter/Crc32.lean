import Fimbulwinter.FilePath

/-! # `utility::crypto::crc32`

The table of remainders of bytes, and the checksum one bit at a time. -/
namespace Fimbulwinter.Crc32
open DirectoryRegistry

/-- The conversion of a `char`, which is signed or not, to `std::uint32_t`. -/
def ofChar (signed : Bool) (c : UInt8) : UInt32 :=
  if signed = true ∧ 128 ≤ c then c.toUInt32 ||| 0xffffff00 else c.toUInt32

/-- `crc32_table::values` -/
def table (i : Fin 256) : UInt32 := crcTableGen (UInt32.ofNat i) 8

/-- `crc32_accumulate` -/
def accumulate (signed : Bool) (crc : UInt32) (c : UInt8) : UInt32 :=
  table ⟨((ofChar signed c ^^^ crc) &&& 0xff).toNat, by
    rw [UInt32.toNat_and]
    exact Nat.lt_of_le_of_lt Nat.and_le_right (by decide)⟩ ^^^ (crc >>> 8)

/-- `crc32_append` of a string that ends with a zero; `none` is a read behind the characters. -/
def append (signed : Bool) (crc : UInt32) : List UInt8 → Option UInt32
  | [] => none
  | c :: str => if c = 0 then some crc else append signed (accumulate signed crc c) str

/-- `crc32_append` of a number of characters. -/
def appendN (signed : Bool) (crc : UInt32) : List UInt8 → ℕ → Option UInt32
  | _, 0 => some crc
  | [], _ + 1 => none
  | c :: str, n + 1 => appendN signed (accumulate signed crc c) str n

/-- `crc32` of a string that ends with a zero. -/
def crc32 (signed : Bool) (str : List UInt8) : Option UInt32 :=
  (append signed (~~~ 0) str).map (~~~ ·)

/-- `crc32` of a number of characters. -/
def crc32N (signed : Bool) (str : List UInt8) (n : ℕ) : Option UInt32 :=
  (appendN signed (~~~ 0) str n).map (~~~ ·)

/-- `std::strlen` -/
def strlen (str : List UInt8) : ℕ := (str.takeWhile (· ≠ 0)).length

/-! ## One bit at a time -/

/-- The bits of a byte, the least one first. -/
def bitsOf (c : UInt8) : List Bool := (List.range 8).map c.toNat.testBit

/-- What one bit of the message makes of a remainder. -/
def bitStep (crc : UInt32) (b : Bool) : UInt32 :=
  (if (crc &&& 1 = 1) ≠ (b = true) then (0xedb88320 : UInt32) else 0) ^^^ (crc >>> 1)

def bitwiseState (crc : UInt32) (s : List UInt8) : UInt32 := (s.flatMap bitsOf).foldl bitStep crc

/-- The checksum of bytes, bit by bit. -/
def bitwise (s : List UInt8) : UInt32 := ~~~ bitwiseState (~~~ 0) s

/-! ## Linearity -/

theorem and_one (x : UInt32) : x &&& 1 = 0 ∨ x &&& 1 = 1 := by
  have hlt : (x &&& 1).toNat < 2 := by
    rw [UInt32.toNat_and]
    exact Nat.lt_of_le_of_lt Nat.and_le_right (by decide)
  rcases Nat.lt_succ_iff_lt_or_eq.mp hlt with h | h
  · exact .inl (UInt32.toNat_inj.mp (Nat.lt_one_iff.mp h))
  · exact .inr (UInt32.toNat_inj.mp h)

/-- `crc32_table_gen` for one bit. -/
def tableStep (rem : UInt32) : UInt32 :=
  (if rem &&& 1 = 1 then (0xedb88320 : UInt32) else 0) ^^^ (rem >>> 1)

theorem crcTableGen_succ (rem : UInt32) (n : ℕ) :
    crcTableGen rem (n + 1) = crcTableGen (tableStep rem) n := rfl

theorem and_xor_right (a b m : UInt32) : (a ^^^ b) &&& m = (a &&& m) ^^^ (b &&& m) := by
  refine UInt32.toNat_inj.mp ?_
  rw [UInt32.toNat_and, UInt32.toNat_xor, UInt32.toNat_xor, UInt32.toNat_and, UInt32.toNat_and,
    Nat.and_xor_distrib_right]

theorem xor_cancel (p a b : UInt32) : (p ^^^ a) ^^^ (p ^^^ b) = a ^^^ b := by
  have hswap : (p ^^^ a) ^^^ (p ^^^ b) = (p ^^^ p) ^^^ (a ^^^ b) := by ac_rfl
  rw [hswap, UInt32.xor_self, UInt32.zero_xor]

/-- A step is linear in exclusive or. -/
theorem tableStep_xor (a b : UInt32) : tableStep (a ^^^ b) = tableStep a ^^^ tableStep b := by
  rw [tableStep, tableStep, tableStep, and_xor_right, UInt32.shiftRight_xor]
  rcases and_one a with ha | ha <;> rcases and_one b with hb | hb <;> rw [ha, hb]
  · simp
  · change (0xedb88320 : UInt32) ^^^ (a >>> 1 ^^^ b >>> 1) =
      ((0 : UInt32) ^^^ a >>> 1) ^^^ ((0xedb88320 : UInt32) ^^^ b >>> 1)
    rw [UInt32.zero_xor]
    ac_rfl
  · change (0xedb88320 : UInt32) ^^^ (a >>> 1 ^^^ b >>> 1) =
      ((0xedb88320 : UInt32) ^^^ a >>> 1) ^^^ ((0 : UInt32) ^^^ b >>> 1)
    rw [UInt32.zero_xor]
    ac_rfl
  · change (0 : UInt32) ^^^ (a >>> 1 ^^^ b >>> 1) =
      ((0xedb88320 : UInt32) ^^^ a >>> 1) ^^^ ((0xedb88320 : UInt32) ^^^ b >>> 1)
    rw [UInt32.zero_xor, xor_cancel]

theorem crcTableGen_xor (a b : UInt32) (n : ℕ) :
    crcTableGen (a ^^^ b) n = crcTableGen a n ^^^ crcTableGen b n := by
  induction n generalizing a b with
  | zero => rfl
  | succ n ih =>
    rw [crcTableGen_succ, crcTableGen_succ, crcTableGen_succ, tableStep_xor, ih]

/-- A remainder whose low bits are zero is shifted only. -/
theorem toNat_crcTableGen (x : UInt32) {n : ℕ} (hx : x.toNat % 2 ^ n = 0) :
    (crcTableGen x n).toNat = x.toNat / 2 ^ n := by
  induction n generalizing x with
  | zero => exact (Nat.div_one x.toNat).symm
  | succ n ih =>
    have hdvd : 2 ^ (n + 1) ∣ x.toNat := Nat.dvd_of_mod_eq_zero hx
    have heven : x.toNat % 2 = 0 := Nat.mod_eq_zero_of_dvd ((Dvd.intro_left (2 ^ n) rfl).trans hdvd)
    have hbit : x &&& 1 = 0 := by
      refine UInt32.toNat_inj.mp ?_
      rw [UInt32.toNat_and]
      exact (Nat.and_one_is_mod x.toNat).trans heven
    have hstep : (tableStep x).toNat = x.toNat / 2 := by
      rw [tableStep, hbit]
      change ((0 : UInt32) ^^^ x >>> 1).toNat = x.toNat / 2
      rw [UInt32.zero_xor, UInt32.toNat_shiftRight]
      rfl
    rw [crcTableGen_succ, ih, hstep, Nat.div_div_eq_div_mul, pow_succ']
    rw [hstep]
    refine Nat.mod_eq_zero_of_dvd (Nat.dvd_div_of_mul_dvd ?_)
    rwa [← pow_succ']

theorem shiftRight_eight (x : UInt32) : (x >>> 8).toNat = x.toNat / 2 ^ 8 := by
  rw [UInt32.toNat_shiftRight]
  exact Nat.shiftRight_eq_div_pow x.toNat 8

theorem shiftRight_eight_eq_zero {x : UInt32} (hx : x.toNat < 2 ^ 8) : x >>> 8 = 0 := by
  refine UInt32.toNat_inj.mp ?_
  rw [shiftRight_eight, Nat.div_eq_of_lt hx]
  rfl

theorem and_low_lt (x : UInt32) : (x &&& 0xff).toNat < 2 ^ 8 := by
  rw [UInt32.toNat_and]
  exact Nat.lt_of_le_of_lt Nat.and_le_right (by decide)

/-- Eight steps are the entry of the low byte in the table, and a shift. -/
theorem crcTableGen_eight (x : UInt32) :
    crcTableGen x 8 = crcTableGen (x &&& 0xff) 8 ^^^ (x >>> 8) := by
  have hsplit : x = (x &&& 0xff) ^^^ (x &&& ~~~ 0xff) := by
    refine UInt32.toBitVec_inj.mp (BitVec.eq_of_getLsbD_eq fun i hi => ?_)
    rw [UInt32.toBitVec_xor, UInt32.toBitVec_and, UInt32.toBitVec_and, UInt32.toBitVec_not,
      BitVec.getLsbD_xor, BitVec.getLsbD_and, BitVec.getLsbD_and, BitVec.getLsbD_not,
      decide_eq_true hi]
    cases x.toBitVec.getLsbD i <;> cases (0xff : UInt32).toBitVec.getLsbD i <;> rfl
  have hlow : (x &&& ~~~ 0xff).toNat % 2 ^ 8 = 0 := by
    have hzero : (x &&& ~~~ 0xff) &&& 0xff = 0 := by
      rw [UInt32.and_assoc, UInt32.not_and_self, UInt32.and_zero]
    have hmod := congrArg UInt32.toNat hzero
    rw [UInt32.toNat_and] at hmod
    exact (Nat.and_two_pow_sub_one_eq_mod _ 8).symm.trans hmod
  have hhigh : crcTableGen (x &&& ~~~ 0xff) 8 = x >>> 8 := by
    refine UInt32.toNat_inj.mp ?_
    rw [toNat_crcTableGen _ hlow, ← shiftRight_eight]
    nth_rewrite 2 [hsplit]
    rw [UInt32.shiftRight_xor, shiftRight_eight_eq_zero (and_low_lt x), UInt32.zero_xor]
  nth_rewrite 1 [hsplit]
  rw [crcTableGen_xor, hhigh]

/-! ## A byte of the message -/

/-- The step of the table, of a message that is mixed into the remainder before. -/
theorem tableStep_xor_message (crc v : UInt32) :
    tableStep (crc ^^^ v) = bitStep crc (v.toNat.testBit 0) ^^^ (v >>> 1) := by
  have hbit : v &&& 1 = 1 ↔ v.toNat.testBit 0 = true := by
    rw [Nat.testBit_zero, decide_eq_true_iff, ← UInt32.toNat_inj, UInt32.toNat_and]
    exact Eq.congr_left (Nat.and_one_is_mod v.toNat)
  rw [tableStep_xor, tableStep, tableStep, bitStep]
  rcases and_one crc with hc | hc <;> rcases and_one v with hv | hv <;>
    simp only [hc, hv, ← hbit]
  · simp
  · simp
    ac_rfl
  · simp
  · rw [if_pos trivial, xor_cancel, if_neg (not_not_intro rfl), UInt32.zero_xor]

/-- The bits of a message, one after another, are the steps of the table over all of it. -/
theorem crcTableGen_xor_message (crc v : UInt32) {n : ℕ} (hv : v.toNat < 2 ^ n) :
    crcTableGen (crc ^^^ v) n = ((List.range n).map v.toNat.testBit).foldl bitStep crc := by
  induction n generalizing crc v with
  | zero =>
    have hzero : v = 0 := UInt32.toNat_inj.mp (Nat.lt_one_iff.mp hv)
    rw [hzero, UInt32.xor_zero]
    rfl
  | succ n ih =>
    have hhalf : (v >>> 1).toNat = v.toNat / 2 := by
      rw [UInt32.toNat_shiftRight]
      rfl
    have hlt : (v >>> 1).toNat < 2 ^ n := by
      rw [hhalf]
      exact Nat.div_lt_of_lt_mul (by rwa [← pow_succ'])
    have hbits : (List.range n).map (v.toNat.testBit ∘ Nat.succ) =
        (List.range n).map (v >>> 1).toNat.testBit := by
      refine List.map_congr_left fun i _ => ?_
      rw [hhalf, Function.comp_apply, Nat.testBit_succ]
    rw [crcTableGen_succ, tableStep_xor_message, ih _ _ hlt, List.range_succ_eq_map, List.map_cons,
      List.map_map, List.foldl_cons, hbits]

/-- The sign of a character does not reach the table. -/
theorem ofChar_and (signed : Bool) (c : UInt8) : ofChar signed c &&& 0xff = c.toUInt32 &&& 0xff := by
  unfold ofChar
  split
  · refine UInt32.toNat_inj.mp ?_
    rw [UInt32.toNat_and, UInt32.toNat_or, Nat.and_or_distrib_right, UInt32.toNat_and]
    exact Nat.or_zero _
  · rfl

theorem accumulate_eq_crcAccumulate (signed : Bool) (crc : UInt32) (c : UInt8) :
    accumulate signed crc c = crcAccumulate crc c := by
  unfold accumulate table crcAccumulate
  rw [UInt32.ofNat_toNat, and_xor_right, ofChar_and, ← and_xor_right]

theorem accumulate_eq_foldl (signed : Bool) (crc : UInt32) (c : UInt8) :
    accumulate signed crc c = (bitsOf c).foldl bitStep crc := by
  have hlt : c.toUInt32.toNat < 2 ^ 8 := by
    rw [UInt8.toNat_toUInt32]
    exact c.toNat_lt
  have hbits := crcTableGen_xor_message crc c.toUInt32 hlt
  rw [crcTableGen_eight, UInt32.shiftRight_xor, shiftRight_eight_eq_zero hlt, UInt32.xor_zero,
    UInt32.xor_comm crc, UInt8.toNat_toUInt32] at hbits
  rw [accumulate_eq_crcAccumulate]
  exact hbits

/-! ## Strings -/

theorem bitwiseState_cons (crc : UInt32) (c : UInt8) (s : List UInt8) :
    bitwiseState crc (c :: s) = bitwiseState ((bitsOf c).foldl bitStep crc) s := by
  rw [bitwiseState, List.flatMap_cons, List.foldl_append]
  rfl

theorem bitwiseState_append (crc : UInt32) (s t : List UInt8) :
    bitwiseState crc (s ++ t) = bitwiseState (bitwiseState crc s) t := by
  rw [bitwiseState, List.flatMap_append, List.foldl_append]
  rfl

theorem appendN_eq (signed : Bool) (crc : UInt32) (s rest : List UInt8) :
    appendN signed crc (s ++ rest) s.length = some (bitwiseState crc s) := by
  induction s generalizing crc with
  | nil => cases rest <;> rfl
  | cons c s ih =>
    rw [bitwiseState_cons, ← accumulate_eq_foldl signed]
    exact ih (accumulate signed crc c)

theorem append_eq (signed : Bool) (crc : UInt32) {s : List UInt8} (rest : List UInt8)
    (hs : 0 ∉ s) : append signed crc (s ++ 0 :: rest) = some (bitwiseState crc s) := by
  induction s generalizing crc with
  | nil => rfl
  | cons c s ih =>
    have hc : c ≠ 0 := fun h => hs (h ▸ List.mem_cons_self)
    rw [bitwiseState_cons, ← accumulate_eq_foldl signed, List.cons_append, append, if_neg hc]
    exact ih (accumulate signed crc c) fun h => hs (List.mem_cons_of_mem c h)

theorem strlen_eq {s : List UInt8} (rest : List UInt8) (hs : 0 ∉ s) :
    strlen (s ++ 0 :: rest) = s.length := by
  have hne : ∀ c ∈ s, decide (c ≠ 0) = true := fun c hc =>
    decide_eq_true fun h => hs (h ▸ hc)
  rw [strlen, List.takeWhile_append_of_pos hne, List.takeWhile_cons_of_neg (by simp),
    List.append_nil]

/-- The checksum of the table is the one of the bits, whatever lies behind the characters, whether a
`char` is signed or not, for a length and for a string that ends with a zero; a second part
continues from the state after the first one. -/
theorem crc32N_eq_bitwise (signed : Bool) (s : List UInt8) :
    (∀ rest, crc32N signed (s ++ rest) s.length = some (bitwise s)) ∧
      (∀ crc t rest, appendN signed crc (s ++ (t ++ rest)) (s.length + t.length) =
        (appendN signed crc (s ++ (t ++ rest)) s.length).bind fun state =>
          appendN signed state (t ++ rest) t.length) ∧
      (∀ t rest, crc32N signed (s ++ (t ++ rest)) (s.length + t.length) =
        (appendN signed (~~~ bitwise s) (t ++ rest) t.length).map (~~~ ·)) ∧
      ∀ rest, 0 ∉ s →
        crc32 signed (s ++ 0 :: rest) =
            crc32N signed (s ++ 0 :: rest) (strlen (s ++ 0 :: rest)) ∧
          crc32 signed (s ++ 0 :: rest) = some (bitwise s) := by
  have hboth (crc : UInt32) (t rest : List UInt8) :
      appendN signed crc (s ++ (t ++ rest)) (s.length + t.length) =
        some (bitwiseState (bitwiseState crc s) t) := by
    rw [← List.append_assoc, ← List.length_append, appendN_eq, bitwiseState_append]
  have hone (rest : List UInt8) : crc32N signed (s ++ rest) s.length = some (bitwise s) := by
    rw [crc32N, appendN_eq]
    rfl
  refine ⟨hone, fun crc t rest => ?_, fun t rest => ?_, fun rest hs => ?_⟩
  · rw [hboth, appendN_eq, Option.bind_some, appendN_eq]
  · rw [crc32N, hboth, appendN_eq, bitwise, UInt32.not_not]
  · have hzero : crc32 signed (s ++ 0 :: rest) = some (bitwise s) := by
      rw [crc32, append_eq signed _ rest hs]
      rfl
    exact ⟨by rw [hzero, strlen_eq rest hs, hone], hzero⟩

example : bitwise [0x31, 0x32, 0x33, 0x34, 0x35, 0x36, 0x37, 0x38, 0x39] = 0xcbf43926 := by
  decide +kernel

end Fimbulwinter.Crc32
