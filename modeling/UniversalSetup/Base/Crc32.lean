import Mathlib.Logic.Function.Iterate

/-!
# Cyclic redundancy checks

A reflected 32-bit CRC shifts a register by one bit at a time and adds the polynomial when a one
falls out. Eight such steps are linear in the register, so they can be looked up in a table for the
low byte and done by a plain shift for the other three. The two ways agree for every polynomial.
-/

namespace Usk.Crc

variable (polynomial : BitVec 32)

/-- One bit: `(crc >> 1) ^ (polynomial & (0 - (crc & 1)))`. -/
def shiftBit (crc : BitVec 32) : BitVec 32 :=
  (crc >>> 1) ^^^ (polynomial &&& (0#32 - (crc &&& 1#32)))

/-- A byte as a register value. -/
def ofByte (b : UInt8) : BitVec 32 :=
  BitVec.ofNat 32 b.toNat

/-- The eight bits of a byte, one after the other. -/
def feed (crc : BitVec 32) (b : UInt8) : BitVec 32 :=
  (shiftBit polynomial)^[8] (crc ^^^ ofByte b)

/-- The table of what eight steps make of each byte. -/
def table : List (BitVec 32) :=
  (List.range 256).map fun index => (shiftBit polynomial)^[8] (BitVec.ofNat 32 index)

/-- One byte with the table. -/
def feedTable (crc : BitVec 32) (b : UInt8) : BitVec 32 :=
  (table polynomial).getD ((crc ^^^ ofByte b) &&& 0xff#32).toNat 0#32 ^^^ (crc >>> 8)

/-! ## Linearity -/

theorem shiftBit_eq (crc : BitVec 32) :
    shiftBit polynomial crc = (crc >>> 1) ^^^ (if crc.getLsbD 0 then polynomial else 0#32) := by
  unfold shiftBit
  congr 1
  rw [BitVec.and_one_eq_setWidth_ofBool_getLsbD]
  cases crc.getLsbD 0
  · simp
  · have hmask : 0#32 - BitVec.setWidth 32 (BitVec.ofBool true) = BitVec.allOnes 32 := by
      decide
    rw [hmask, BitVec.and_allOnes]
    rfl

theorem shiftBit_xor (x y : BitVec 32) :
    shiftBit polynomial (x ^^^ y) = shiftBit polynomial x ^^^ shiftBit polynomial y := by
  rw [shiftBit_eq, shiftBit_eq, shiftBit_eq, BitVec.getLsbD_xor, BitVec.ushiftRight_xor_distrib]
  cases x.getLsbD 0 <;> cases y.getLsbD 0
  · simp
  · simp [BitVec.xor_assoc]
  · simp only [Bool.true_xor, Bool.not_false, if_true, Bool.false_eq_true, if_false,
      BitVec.xor_zero]
    rw [BitVec.xor_assoc, BitVec.xor_assoc, BitVec.xor_comm polynomial]
  · simp only [Bool.xor_self, Bool.false_eq_true, if_false, if_true, BitVec.xor_zero]
    rw [BitVec.xor_comm (y >>> 1) polynomial, BitVec.xor_assoc, ← BitVec.xor_assoc polynomial,
      BitVec.xor_self, BitVec.zero_xor]

theorem iterate_xor (n : Nat) (x y : BitVec 32) :
    (shiftBit polynomial)^[n] (x ^^^ y) =
      (shiftBit polynomial)^[n] x ^^^ (shiftBit polynomial)^[n] y := by
  induction n generalizing x y with
  | zero => rfl
  | succ n ih => rw [Function.iterate_succ_apply, shiftBit_xor, ih]; rfl

/-- Without ones among the low bits, the steps are plain shifts. -/
theorem iterate_high {x : BitVec 32} (h : ∀ i < 8, x.getLsbD i = false) :
    ∀ {n : Nat}, n ≤ 8 → (shiftBit polynomial)^[n] x = x >>> n
  | 0, _ => (BitVec.ushiftRight_zero x).symm
  | n + 1, hn => by
    have hlow : (x >>> n).getLsbD 0 = false := by
      rw [BitVec.getLsbD_ushiftRight]
      exact h n (by omega)
    rw [Function.iterate_succ_apply', iterate_high h (by omega), shiftBit_eq, hlow]
    simp only [Bool.false_eq_true, if_false, BitVec.xor_zero]
    rw [← BitVec.shiftRight_add]

/-! ## The table -/

theorem table_getD {n : Nat} (h : n < 256) :
    (table polynomial).getD n 0#32 = (shiftBit polynomial)^[8] (BitVec.ofNat 32 n) := by
  unfold table
  rw [List.getD_eq_getElem?_getD, List.getElem?_map, List.getElem?_range h]
  rfl

/-- Eight steps, split at the low byte. -/
theorem iterate_split (x : BitVec 32) :
    (shiftBit polynomial)^[8] x = (shiftBit polynomial)^[8] (x &&& 0xff#32) ^^^ (x >>> 8) := by
  have hsplit : x = (x &&& 0xff#32) ^^^ (x &&& ~~~0xff#32) := by
    apply BitVec.eq_of_getLsbD_eq
    intro i hi
    rw [BitVec.getLsbD_xor, BitVec.getLsbD_and, BitVec.getLsbD_and, BitVec.getLsbD_not]
    cases x.getLsbD i <;> cases (0xff#32).getLsbD i <;> simp [hi]
  have hhigh : ∀ i < 8, (x &&& ~~~0xff#32).getLsbD i = false := by
    intro i hi
    have hones : ∀ j < 8, (0xff#32).getLsbD j = true := by decide
    rw [BitVec.getLsbD_and, BitVec.getLsbD_not, hones i hi]
    simp
  have hshift : (x &&& ~~~0xff#32) >>> 8 = x >>> 8 := by
    apply BitVec.eq_of_getLsbD_eq
    intro i hi
    have hzeros : ∀ j < 24, (0xff#32).getLsbD (8 + j) = false := by decide
    rw [BitVec.getLsbD_ushiftRight, BitVec.getLsbD_ushiftRight, BitVec.getLsbD_and,
      BitVec.getLsbD_not]
    by_cases hi24 : i < 24
    · rw [hzeros i hi24]
      simp only [Bool.not_false, Bool.and_true]
      rw [decide_eq_true (show 8 + i < 32 by omega), Bool.and_true]
    · rw [BitVec.getLsbD_of_ge x (8 + i) (by omega)]
      simp
  calc (shiftBit polynomial)^[8] x
      = (shiftBit polynomial)^[8] ((x &&& 0xff#32) ^^^ (x &&& ~~~0xff#32)) := by rw [← hsplit]
    _ = (shiftBit polynomial)^[8] (x &&& 0xff#32) ^^^ (shiftBit polynomial)^[8]
        (x &&& ~~~0xff#32) := iterate_xor polynomial 8 _ _
    _ = (shiftBit polynomial)^[8] (x &&& 0xff#32) ^^^ (x >>> 8) := by
        rw [iterate_high polynomial hhigh (Nat.le_refl 8), hshift]

/-- The table does what the bits do. -/
theorem feedTable_eq (crc : BitVec 32) (b : UInt8) :
    feedTable polynomial crc b = feed polynomial crc b := by
  have hlt : ((crc ^^^ ofByte b) &&& 0xff#32).toNat < 256 := by
    rw [BitVec.toNat_and]
    exact Nat.lt_of_le_of_lt Nat.and_le_right (by decide)
  have hbyte : (crc ^^^ ofByte b) >>> 8 = crc >>> 8 := by
    have hzero : ofByte b >>> 8 = 0#32 := by
      apply BitVec.eq_of_toNat_eq
      have hb := b.toNat_lt
      rw [BitVec.toNat_ushiftRight, ofByte, BitVec.toNat_ofNat, Nat.shiftRight_eq_div_pow]
      have : b.toNat % 2 ^ 32 / 2 ^ 8 = 0 := by omega
      simpa using this
    rw [BitVec.ushiftRight_xor_distrib, hzero, BitVec.xor_zero]
  rw [feedTable, feed, table_getD polynomial hlt, iterate_split polynomial (crc ^^^ ofByte b),
    hbyte]
  congr 2
  apply BitVec.eq_of_toNat_eq
  rw [BitVec.toNat_ofNat]
  exact Nat.mod_eq_of_lt (by omega)

end Usk.Crc
