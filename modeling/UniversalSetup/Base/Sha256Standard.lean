import Mathlib.Data.List.Induction
import Mathlib.Data.Nat.NthRoot.Defs
import Mathlib.Tactic.Ring

/-!
# The Secure Hash Standard

SHA-256 as FIPS 180-4 defines it, in the standard's own terms: messages are bit strings, the
functions act on words of 32 bits, and the constants are the first bits of the fractional parts of
square and cube roots of primes. The sections named below are those of the standard.
-/

namespace Usk.Fips180

/-! ## Bit strings and words (section 3) -/

/-- A bit string; in a number the most significant bit stands first. -/
abbrev Bits := List Bool

abbrev Word := BitVec 32

/-- The number that a bit string denotes. -/
def ofBits (bits : Bits) : Nat :=
  bits.foldl (fun n b => 2 * n + b.toNat) 0

/-- The last `width` bits of a number. -/
def toBits : Nat → Nat → Bits
  | 0, _ => []
  | width + 1, n => toBits width (n / 2) ++ [decide (n % 2 = 1)]

/-! ## Functions (section 4.1.2) -/

def rotr (n : Nat) (x : Word) : Word :=
  x >>> n ||| x <<< (32 - n)

def shr (n : Nat) (x : Word) : Word :=
  x >>> n

def ch (x y z : Word) : Word :=
  (x &&& y) ^^^ (~~~x &&& z)

def maj (x y z : Word) : Word :=
  (x &&& y) ^^^ (x &&& z) ^^^ (y &&& z)

/-- The functions that the standard writes with a capital sigma. -/
def sum0 (x : Word) : Word :=
  rotr 2 x ^^^ rotr 13 x ^^^ rotr 22 x

def sum1 (x : Word) : Word :=
  rotr 6 x ^^^ rotr 11 x ^^^ rotr 25 x

/-- The functions that the standard writes with a small sigma. -/
def sigma0 (x : Word) : Word :=
  rotr 7 x ^^^ rotr 18 x ^^^ shr 3 x

def sigma1 (x : Word) : Word :=
  rotr 17 x ^^^ rotr 19 x ^^^ shr 10 x

/-! ## Constants (sections 4.2.2 and 5.3.3) -/

/-- The first sixty-four primes. -/
def primes : List Nat :=
  (List.range 312).filter fun p => 2 ≤ p ∧ ∀ d < p, d ∣ p → d = 1

/-- The first thirty-two bits of the fractional part of a root. -/
def fraction (degree n : Nat) : Word :=
  BitVec.ofNat 32 (Nat.nthRoot degree (n * 2 ^ (32 * degree)))

theorem primes_eq : primes =
    [2, 3, 5, 7, 11, 13, 17, 19, 23, 29, 31, 37, 41, 43, 47, 53, 59, 61, 67,
    71, 73, 79, 83, 89, 97, 101, 103, 107, 109, 113, 127, 131, 137, 139, 149, 151, 157, 163, 167,
      173,
    179, 181, 191, 193, 197, 199, 211, 223, 227, 229, 233, 239, 241, 251, 257, 263, 269, 271, 277,
      281,
    283, 293, 307, 311] := by
  decide +kernel

/-- The constants `K` of the rounds. -/
def constant (t : Nat) : Word :=
  fraction 3 (primes.getD t 0)

/-- Eight words: a hash value, or the working variables of a block. -/
structure Hash where
  a : Word
  b : Word
  c : Word
  d : Word
  e : Word
  f : Word
  g : Word
  h : Word

def Hash.words (s : Hash) : List Word :=
  [s.a, s.b, s.c, s.d, s.e, s.f, s.g, s.h]

/-- The initial hash value, of the first eight primes. -/
def initial : Hash :=
  ⟨fraction 2 2, fraction 2 3, fraction 2 5, fraction 2 7, fraction 2 11, fraction 2 13,
    fraction 2 17, fraction 2 19⟩

/-! ## Preprocessing (section 5) -/

/-- How many zero bits are appended: the least `k` with `l + 1 + k = 448` modulo 512. -/
def zeros (l : Nat) : Nat :=
  (447 + 512 - l % 512) % 512

/-- The padded message. -/
def pad (message : Bits) : Bits :=
  message ++ true :: (List.replicate (zeros message.length) false ++ toBits 64 message.length)

/-- A block of the padded message. -/
def block (padded : Bits) (i : Nat) : Bits :=
  (padded.drop (512 * i)).take 512

/-- A word of a block. -/
def wordOf (block : Bits) (j : Nat) : Word :=
  BitVec.ofNat 32 (ofBits ((block.drop (32 * j)).take 32))

/-! ## Hash computation (section 6.2.2) -/

/-- The message schedule `W`. -/
def schedule (block : Bits) (t : Nat) : Word :=
  if t < 16 then wordOf block t
  else sigma1 (schedule block (t - 2)) + schedule block (t - 7) + sigma0 (schedule block (t - 15)) +
    schedule block (t - 16)
termination_by t

/-- One round on the working variables. -/
def round (s : Hash) (k w : Word) : Hash :=
  let t1 := s.h + sum1 s.e + ch s.e s.f s.g + k + w
  let t2 := sum0 s.a + maj s.a s.b s.c
  ⟨t1 + t2, s.a, s.b, s.c, s.d + t1, s.e, s.f, s.g⟩

/-- The working variables after `t` rounds. -/
def rounds (block : Bits) (s : Hash) : Nat → Hash
  | 0 => s
  | t + 1 => round (rounds block s t) (constant t) (schedule block t)

/-- The next hash value. -/
def compress (s : Hash) (block : Bits) : Hash :=
  let r := rounds block s 64
  ⟨r.a + s.a, r.b + s.b, r.c + s.c, r.d + s.d, r.e + s.e, r.f + s.f, r.g + s.g, r.h + s.h⟩

/-- The hash value after `i` blocks. -/
def hash (padded : Bits) : Nat → Hash
  | 0 => initial
  | i + 1 => compress (hash padded i) (block padded i)

/-- The message digest, of 256 bits. -/
def digest (message : Bits) : Bits :=
  (hash (pad message) ((pad message).length / 512)).words.flatMap fun w => toBits 32 w.toNat

/-! ## Numbers and their bits -/

theorem ofBits_append (x y : Bits) : ofBits (x ++ y) = ofBits x * 2 ^ y.length + ofBits y := by
  unfold ofBits
  rw [List.foldl_append]
  generalize x.foldl (fun n b => 2 * n + b.toNat) 0 = n
  induction y using List.reverseRecOn with
  | nil => simp
  | append_singleton y b ih =>
    simp only [List.foldl_append, List.foldl_cons, List.foldl_nil, ih, List.length_append,
      List.length_cons, List.length_nil, Nat.zero_add, pow_succ]
    ring

theorem ofBits_lt (x : Bits) : ofBits x < 2 ^ x.length := by
  induction x using List.reverseRecOn with
  | nil => exact Nat.one_pos
  | append_singleton x b ih =>
    have hb : ofBits [b] ≤ 1 := by cases b <;> decide
    rw [ofBits_append, List.length_append, List.length_singleton, pow_one, pow_succ]
    omega

@[simp] theorem length_toBits : ∀ (width n : Nat), (toBits width n).length = width
  | 0, _ => rfl
  | width + 1, n => by simp [toBits, length_toBits]

/-- The bits of a number in two parts. -/
theorem toBits_add (v n : Nat) : ∀ w, toBits (v + w) n = toBits v (n / 2 ^ w) ++ toBits w n
  | 0 => by simp [toBits]
  | w + 1 => by
    rw [← Nat.add_assoc, toBits, toBits_add v (n / 2) w, toBits, Nat.div_div_eq_div_mul,
      List.append_assoc, pow_succ, Nat.mul_comm 2]

theorem ofBits_toBits : ∀ (width n : Nat), ofBits (toBits width n) = n % 2 ^ width
  | 0, n => by simp [toBits, ofBits, Nat.mod_one]
  | width + 1, n => by
    have hbit : ofBits [decide (n % 2 = 1)] = n % 2 := by
      rcases Nat.mod_two_eq_zero_or_one n with h | h <;> simp [ofBits, h]
    rw [toBits, ofBits_append, ofBits_toBits width, hbit, List.length_singleton, pow_one, pow_succ,
      Nat.mul_comm (2 ^ width), Nat.mod_mul]
    ring

/-- Only the last bits of a number are read. -/
theorem toBits_mod : ∀ width n, toBits width (n % 2 ^ width) = toBits width n
  | 0, _ => rfl
  | width + 1, n => by
    have hhalf : n % 2 ^ (width + 1) / 2 = n / 2 % 2 ^ width := by
      rw [pow_succ, Nat.mul_comm, Nat.mod_mul_right_div_self]
    have hlast : n % 2 ^ (width + 1) % 2 = n % 2 :=
      Nat.mod_mod_of_dvd n (Dvd.intro_left _ (pow_succ 2 width).symm)
    rw [toBits, toBits, hhalf, hlast, toBits_mod width]

end Usk.Fips180
