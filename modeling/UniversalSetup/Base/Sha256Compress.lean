import UniversalSetup.Base.Sha256
import UniversalSetup.Base.Sha256Standard

/-!
# The compression function

`transform` computes the compression of the standard. The words of the source are kept as reduced
natural numbers; `ShaState.ofHash` reads the standard's words as such, and the message schedule, the
rounds and the final addition agree under it.
-/

namespace Usk

open Fips180 (Word Hash ofBits toBits)

/-- The bits of a byte string. -/
def bytesBits (data : Bytes) : Fips180.Bits :=
  data.flatMap fun b => toBits 8 b.toNat

/-- The words of a hash value, as the source has them. -/
def ShaState.ofHash (s : Hash) : ShaState :=
  ⟨s.a.toNat, s.b.toNat, s.c.toNat, s.d.toNat, s.e.toNat, s.f.toNat, s.g.toNat, s.h.toNat⟩

/-! ## Constants -/

theorem initial_eq : ShaState.initial = .ofHash Fips180.initial := rfl

theorem shaConstants_eq :
    shaConstants = (List.range 64).map fun t => (Fips180.constant t).toNat := by
  simp only [Fips180.constant, Fips180.primes_eq]
  decide +kernel

/-! ## Words -/

@[simp] theorem rotateRight_toNat (x : Word) (n : Nat) :
    rotateRight x.toNat n = (Fips180.rotr n x).toNat := by
  simp only [rotateRight, word, Fips180.rotr, BitVec.toNat_or, BitVec.toNat_ushiftRight,
    BitVec.toNat_shiftLeft]

theorem sigma0_toNat (x : Word) :
    rotateRight x.toNat 7 ^^^ rotateRight x.toNat 18 ^^^ (x.toNat >>> 3) =
      (Fips180.sigma0 x).toNat := by
  simp only [rotateRight_toNat, Fips180.sigma0, Fips180.shr, BitVec.toNat_xor,
    BitVec.toNat_ushiftRight]

theorem sigma1_toNat (x : Word) :
    rotateRight x.toNat 17 ^^^ rotateRight x.toNat 19 ^^^ (x.toNat >>> 10) =
      (Fips180.sigma1 x).toNat := by
  simp only [rotateRight_toNat, Fips180.sigma1, Fips180.shr, BitVec.toNat_xor,
    BitVec.toNat_ushiftRight]

theorem sum0_toNat (x : Word) :
    rotateRight x.toNat 2 ^^^ rotateRight x.toNat 13 ^^^ rotateRight x.toNat 22 =
      (Fips180.sum0 x).toNat := by
  simp only [rotateRight_toNat, Fips180.sum0, BitVec.toNat_xor]

theorem sum1_toNat (x : Word) :
    rotateRight x.toNat 6 ^^^ rotateRight x.toNat 11 ^^^ rotateRight x.toNat 25 =
      (Fips180.sum1 x).toNat := by
  simp only [rotateRight_toNat, Fips180.sum1, BitVec.toNat_xor]

theorem ch_toNat (x y z : Word) :
    (x.toNat &&& y.toNat) ^^^ ((2 ^ 32 - 1 - x.toNat) &&& z.toNat) = (Fips180.ch x y z).toNat := by
  simp only [Fips180.ch, BitVec.toNat_xor, BitVec.toNat_and, BitVec.toNat_not]

theorem maj_toNat (x y z : Word) :
    (x.toNat &&& y.toNat) ^^^ (x.toNat &&& z.toNat) ^^^ (y.toNat &&& z.toNat) =
      (Fips180.maj x y z).toNat := by
  simp only [Fips180.maj, BitVec.toNat_xor, BitVec.toNat_and]

theorem word_toNat (x y : Word) : word (x.toNat + y.toNat) = (x + y).toNat :=
  (BitVec.toNat_add x y).symm

/-! ## Rounds -/

theorem round_ofHash (s : Hash) (k w : Word) :
    (ShaState.ofHash s).round (k.toNat, w.toNat) = .ofHash (Fips180.round s k w) := by
  simp only [ShaState.round, ShaState.ofHash, sum0_toNat, sum1_toNat, ch_toNat, maj_toNat]
  congr 1
  · simp only [word, Fips180.round, BitVec.toNat_add]
    omega
  · simp only [word, Fips180.round, BitVec.toNat_add]
    omega

theorem foldl_round (bits : Fips180.Bits) (s : Hash) : ∀ n,
    (List.range n).foldl (fun r t => ShaState.round r
      ((Fips180.constant t).toNat, (Fips180.schedule bits t).toNat)) (.ofHash s) =
      .ofHash (Fips180.rounds bits s n)
  | 0 => rfl
  | n + 1 => by
    rw [List.range_succ, List.foldl_append, foldl_round bits s n, List.foldl_cons, List.foldl_nil,
      round_ofHash]
    rfl

/-! ## Words of a block -/

theorem bytesBits_append (x y : Bytes) : bytesBits (x ++ y) = bytesBits x ++ bytesBits y :=
  List.flatMap_append

@[simp] theorem length_bytesBits : ∀ data : Bytes, (bytesBits data).length = 8 * data.length
  | [] => rfl
  | b :: rest => by
    rw [bytesBits, List.flatMap_cons, List.length_append, Fips180.length_toBits, ← bytesBits,
      length_bytesBits rest, List.length_cons]
    omega

theorem bytesBits_drop (data : Bytes) (n : Nat) :
    (bytesBits data).drop (8 * n) = bytesBits (data.drop n) := by
  rcases Nat.lt_or_ge data.length n with h | h
  · rw [List.drop_of_length_le (by rw [length_bytesBits]; omega), List.drop_of_length_le (by omega)]
    rfl
  · have hsplit := bytesBits_append (data.take n) (data.drop n)
    have hlength : (bytesBits (data.take n)).length = 8 * n := by
      rw [length_bytesBits, List.length_take, Nat.min_eq_left h]
    rw [List.take_append_drop] at hsplit
    rw [hsplit, ← hlength, List.drop_left]

theorem bytesBits_take (data : Bytes) (n : Nat) :
    (bytesBits data).take (8 * n) = bytesBits (data.take n) := by
  rcases Nat.lt_or_ge data.length n with h | h
  · rw [List.take_of_length_le (by rw [length_bytesBits]; omega), List.take_of_length_le (by omega)]
  · have hsplit := bytesBits_append (data.take n) (data.drop n)
    have hlength : (bytesBits (data.take n)).length = 8 * n := by
      rw [length_bytesBits, List.length_take, Nat.min_eq_left h]
    rw [List.take_append_drop] at hsplit
    rw [hsplit, ← hlength, List.take_left]

theorem ofBits_bytesBits (data : Bytes) :
    ofBits (bytesBits data) = data.foldl (fun acc b => acc * 256 + b.toNat) 0 := by
  induction data using List.reverseRecOn with
  | nil => rfl
  | append_singleton data b ih =>
    have hbyte : ofBits (bytesBits [b]) = b.toNat := by
      rw [bytesBits, List.flatMap_singleton, Fips180.ofBits_toBits]
      exact Nat.mod_eq_of_lt b.toNat_lt
    rw [bytesBits_append, Fips180.ofBits_append, ih, hbyte, length_bytesBits, List.foldl_append]
    rfl

theorem wordOf_bytesBits (block : Bytes) (j : Nat) :
    (Fips180.wordOf (bytesBits block) j).toNat =
      ((block.drop (4 * j)).take 4).foldl (fun acc b => acc * 256 + b.toNat) 0 := by
  have hdrop : 32 * j = 8 * (4 * j) := by omega
  have hlt := Fips180.ofBits_lt (bytesBits ((block.drop (4 * j)).take 4))
  have hbound : (bytesBits ((block.drop (4 * j)).take 4)).length ≤ 32 := by
    rw [length_bytesBits, List.length_take]
    omega
  rw [Fips180.wordOf, hdrop, bytesBits_drop, show 32 = 8 * 4 from rfl, bytesBits_take,
    BitVec.toNat_ofNat, ← ofBits_bytesBits]
  exact Nat.mod_eq_of_lt (hlt.trans_le (Nat.pow_le_pow_right (by decide) hbound))

theorem blockWords_eq : ∀ (n : Nat) (block : Bytes), blockWords n block =
    (List.range n).map fun j => (Fips180.wordOf (bytesBits block) j).toNat
  | 0, _ => rfl
  | n + 1, block => by
    have hnext (j : Nat) : (Fips180.wordOf (bytesBits (block.drop 4)) j).toNat =
        (Fips180.wordOf (bytesBits block) (j + 1)).toNat := by
      rw [wordOf_bytesBits, wordOf_bytesBits, List.drop_drop]
      congr 3
      omega
    simp only [blockWords, blockWords_eq n, hnext, List.range_succ_eq_map, List.map_cons,
      List.map_map, Function.comp_def, wordOf_bytesBits block 0, Nat.mul_zero, List.drop_zero]

/-! ## The message schedule -/

theorem getD_reverse_range {W : Nat → Nat} {t k : Nat} (h : k < t) :
    ((List.range t).map W).reverse.getD k 0 = W (t - 1 - k) := by
  have hlength : k < ((List.range t).map W).reverse.length := by simpa using h
  rw [List.getD_eq_getElem?_getD, List.getElem?_eq_getElem hlength]
  simp

theorem extendWords_eq (bits : Fips180.Bits) : ∀ (n t : Nat), 16 ≤ t →
    extendWords n ((List.range t).map fun j => (Fips180.schedule bits j).toNat).reverse =
      ((List.range (t + n)).map fun j => (Fips180.schedule bits j).toNat).reverse
  | 0, _, _ => rfl
  | n + 1, t, ht => by
    have hnext : word ((Fips180.schedule bits (t - 16)).toNat +
        (Fips180.sigma0 (Fips180.schedule bits (t - 15))).toNat +
        (Fips180.schedule bits (t - 7)).toNat +
        (Fips180.sigma1 (Fips180.schedule bits (t - 2))).toNat) =
        (Fips180.schedule bits t).toNat := by
      rw [Fips180.schedule.eq_def bits t, if_neg (by omega)]
      simp only [word, BitVec.toNat_add]
      omega
    have hrange : ((List.range (t + 1)).map fun j => (Fips180.schedule bits j).toNat).reverse =
        (Fips180.schedule bits t).toNat ::
          ((List.range t).map fun j => (Fips180.schedule bits j).toNat).reverse := by
      rw [List.range_succ, List.map_append, List.reverse_append]
      rfl
    have hindex : t - 1 - 15 = t - 16 ∧ t - 1 - 14 = t - 15 ∧ t - 1 - 6 = t - 7 ∧ t - 1 - 1 =
      t - 2 := by
      omega
    simp only [extendWords, getD_reverse_range (show 15 < t by omega),
      getD_reverse_range (show 14 < t by omega), getD_reverse_range (show 6 < t by omega),
      getD_reverse_range (show 1 < t by omega), hindex, sigma0_toNat, sigma1_toNat, hnext, ← hrange]
    rw [extendWords_eq bits n (t + 1) (by omega), Nat.add_assoc, Nat.add_comm 1]

/-! ## Blocks -/

/-- `transform` is the compression of the standard. -/
theorem transform_ofHash (s : Hash) (block : Bytes) :
    (ShaState.ofHash s).transform block = .ofHash (Fips180.compress s (bytesBits block)) := by
  have hfirst : blockWords 16 block =
      (List.range 16).map fun j => (Fips180.schedule (bytesBits block) j).toNat := by
    rw [blockWords_eq]
    refine List.map_congr_left fun j hj => ?_
    rw [Fips180.schedule.eq_def, if_pos (List.mem_range.mp hj)]
  have hzip : shaConstants.zip (extendWords 48 (blockWords 16 block).reverse).reverse =
      (List.range 64).map fun t =>
        ((Fips180.constant t).toNat, (Fips180.schedule (bytesBits block) t).toNat) := by
    rw [hfirst, extendWords_eq (bytesBits block) 48 16 (Nat.le_refl 16), List.reverse_reverse,
      shaConstants_eq, List.zip_map']
  have hadd (x y : Word) : word (x.toNat + y.toNat) = (y + x).toNat := by
    rw [word_toNat, BitVec.add_comm]
  simp only [ShaState.transform, hzip, List.foldl_map, foldl_round]
  simp only [ShaState.ofHash, hadd, Fips180.compress]

end Usk
