import Mathlib.Data.Nat.Digits.Lemmas
import Mathlib.Data.List.Basic

/-!
# Byte strings

`std::string` is a sequence of bytes, so texts, paths, identifiers and digests are all `Bytes`.
Character classes are those of the "C" locale, which is what the runtime runs under.
-/

namespace Usk

variable {d n w : Nat}

abbrev Bytes := List UInt8

/-- The bytes of a string literal of the source. All literals the runtime compares or writes are
ASCII. -/
def ascii (s : String) : Bytes :=
  s.toByteArray.data.toList

/-! ## Character classes -/

/-- `std::isdigit`. -/
def isDigit (c : UInt8) : Bool :=
  0x30 ≤ c && c ≤ 0x39

/-- `std::isalnum`. -/
def isAlnum (c : UInt8) : Bool :=
  isDigit c || (0x41 ≤ c && c ≤ 0x5a) || (0x61 ≤ c && c ≤ 0x7a)

/-- `std::tolower`. -/
def toLower (c : UInt8) : UInt8 :=
  if 0x41 ≤ c && c ≤ 0x5a then c + 0x20 else c

/-- A digit of lower case hexadecimal output. -/
def isHex (c : UInt8) : Bool :=
  isDigit c || (0x61 ≤ c && c ≤ 0x66)

/-! ## Identifiers and digests -/

/-- `valid_identifier`: 1 to 128 bytes out of letters, digits, `.`, `_` and `-`. -/
def validIdentifier (value : Bytes) : Bool :=
  !value.isEmpty && decide (value.length ≤ 128) &&
    value.all fun ch => isAlnum ch || ch == 0x2e || ch == 0x5f || ch == 0x2d

/-- `valid_sha256`, spelled `digest` in the journal sources: 64 lower case hexadecimal digits. -/
def validSha256 (value : Bytes) : Bool :=
  value.length == 64 && value.all isHex

/-- `native_identity`: sixteen hexadecimal digits, a colon, sixteen hexadecimal digits. -/
def nativeIdentity (value : Bytes) : Bool :=
  value.length == 33 && value[16]? == some 0x3a && value.count 0x3a == 1 &&
    value.all fun c => c == 0x3a || isHex c

/-! ## Decimal and hexadecimal output -/

/-- The byte of a decimal digit. -/
def digitByte (d : Nat) : UInt8 :=
  UInt8.ofNat (0x30 + d)

/-- `std::to_string` of an unsigned integer. -/
def decimal (n : Nat) : Bytes :=
  if n = 0 then [0x30] else ((Nat.digits 10 n).map digitByte).reverse

/-- The byte of a lower case hexadecimal digit. -/
def hexByte (d : Nat) : UInt8 :=
  if d < 10 then UInt8.ofNat (0x30 + d) else UInt8.ofNat (0x61 + (d - 10))

/-- `hex_id`: sixteen hexadecimal digits of a 64-bit value, padded with zeros. -/
def hexId (value : UInt64) : Bytes :=
  (List.range 16).map fun i => hexByte (value.toNat / 16 ^ (15 - i) % 16)

theorem isDigit_digitByte (h : d < 10) : isDigit (digitByte d) = true := by
  have hall : ∀ e ∈ List.range 10, isDigit (digitByte e) = true := by decide
  exact hall d (List.mem_range.mpr h)

theorem digitByte_toNat (h : d < 10) : (digitByte d).toNat = 0x30 + d := by
  have hall : ∀ e ∈ List.range 10, (digitByte e).toNat = 0x30 + e := by decide
  exact hall d (List.mem_range.mpr h)

theorem isHex_hexByte (h : d < 16) : isHex (hexByte d) = true := by
  have hall : ∀ e ∈ List.range 16, isHex (hexByte e) = true := by decide
  exact hall d (List.mem_range.mpr h)

/-- Every byte of a decimal number is a digit. -/
theorem isDigit_of_mem_decimal {c : UInt8} (h : c ∈ decimal n) : isDigit c = true := by
  unfold decimal at h
  split at h
  · simp only [List.mem_singleton] at h
    subst h; decide
  · simp only [List.mem_reverse, List.mem_map] at h
    obtain ⟨d, hd, rfl⟩ := h
    exact isDigit_digitByte (Nat.digits_lt_base (by decide) hd)

theorem decimal_ne_nil (n : Nat) : decimal n ≠ [] := by
  unfold decimal
  split
  · simp
  · next h => simpa using Nat.digits_ne_nil_iff_ne_zero.mpr h

/-- A decimal number without its last digit is the decimal number of the quotient. -/
theorem decimal_append (h : 10 ≤ n) : decimal n = decimal (n / 10) ++ [digitByte (n % 10)] := by
  have h0 : n ≠ 0 := by omega
  have h1 : n / 10 ≠ 0 := by omega
  unfold decimal
  rw [if_neg h0, if_neg h1, Nat.digits_def' (by decide) (by omega)]
  simp

theorem decimal_of_lt (h : n < 10) : decimal n = [digitByte n] := by
  have hall : ∀ e ∈ List.range 10, decimal e = [digitByte e] := by decide
  exact hall n (List.mem_range.mpr h)

theorem nativeIdentity_hexId (v w : UInt64) :
    nativeIdentity (hexId v ++ 0x3a :: hexId w) = true := by
  have hhex : ∀ u : UInt64, ∀ c ∈ hexId u, isHex c = true := by
    intro u c hc
    obtain ⟨i, -, rfl⟩ := List.mem_map.mp hc
    exact isHex_hexByte (Nat.mod_lt _ (by decide))
  have hlen : ∀ u : UInt64, (hexId u).length = 16 := fun u => by simp [hexId]
  have hcolon : ∀ u : UInt64, (hexId u).count 0x3a = 0 := by
    intro u
    rw [List.count_eq_zero]
    intro hm
    have := hhex u _ hm
    revert this; decide
  simp only [nativeIdentity, Bool.and_eq_true, beq_iff_eq, List.all_eq_true, Bool.or_eq_true]
  refine ⟨⟨⟨by simp [hlen], ?_⟩, by simp [hcolon]⟩, ?_⟩
  · rw [List.getElem?_append_right (by simp [hlen])]
    simp [hlen]
  · intro c hc
    rcases List.mem_append.mp hc with hc | hc
    · exact Or.inr (hhex v c hc)
    · rcases List.mem_cons.mp hc with rfl | hc
      · exact Or.inl rfl
      · exact Or.inr (hhex w c hc)

/-! ## Numbers of a fixed width -/

/-- The last `w` decimal digits of a number. -/
def padded : Nat → Nat → Bytes
  | 0, _ => []
  | w + 1, n => padded w (n / 10) ++ [digitByte (n % 10)]

theorem padded_length (w n : Nat) : (padded w n).length = w := by
  induction w generalizing n with
  | zero => rfl
  | succ w ih => rw [padded, List.length_append, ih]; rfl

theorem padded_zero (w : Nat) : padded w 0 = List.replicate w 0x30 := by
  induction w with
  | zero => rfl
  | succ w ih =>
    rw [padded, ih, List.replicate_succ']
    rfl

theorem isDigit_padded : ∀ w n : Nat, (padded w n).all isDigit = true
  | 0, _ => rfl
  | w + 1, n => by
    rw [padded, List.all_append, isDigit_padded w (n / 10), List.all_cons,
      isDigit_digitByte (Nat.mod_lt n (by decide))]
    rfl

/-- Zeros in front of the decimal form fill it up to the width. -/
theorem replicate_append_decimal (h : n < 10 ^ (w + 1)) :
    List.replicate (w + 1 - (decimal n).length) 0x30 ++ decimal n = padded (w + 1) n := by
  induction w generalizing n with
  | zero =>
    have hn : n < 10 := by simpa using h
    rw [decimal_of_lt hn, padded, Nat.mod_eq_of_lt hn]
    rfl
  | succ w ih =>
    by_cases hn : n < 10
    · rw [decimal_of_lt hn, padded, Nat.mod_eq_of_lt hn, Nat.div_eq_of_lt hn, padded_zero]
      rfl
    · have hdiv : n / 10 < 10 ^ (w + 1) := by
        rw [Nat.div_lt_iff_lt_mul (by decide)]
        rw [Nat.pow_succ] at h
        exact h
      rw [decimal_append (by omega), List.length_append, padded, ← ih hdiv, List.length_singleton,
        ← List.append_assoc]
      congr 3
      omega

theorem decimal_length_le (h : n < 10 ^ (w + 1)) : (decimal n).length ≤ w + 1 := by
  have hlen := congrArg List.length (replicate_append_decimal h)
  rw [List.length_append, List.length_replicate, padded_length] at hlen
  omega

theorem append_lt_append {a b : Bytes} (hlen : a.length = b.length) (h : a < b) (x y : Bytes) :
    a ++ x < b ++ y := by
  induction a generalizing b with
  | nil =>
    cases b with
    | nil => exact absurd h (List.lt_irrefl _)
    | cons d b => cases hlen
  | cons c a ih =>
    cases b with
    | nil => cases hlen
    | cons d b =>
      rw [List.cons_append, List.cons_append, List.cons_lt_cons_iff]
      rw [List.cons_lt_cons_iff] at h
      rcases h with h | ⟨rfl, h⟩
      · exact Or.inl h
      · exact Or.inr ⟨rfl, ih (by simpa using hlen) h⟩

/-- Numbers of one width are ordered as texts as they are as numbers. -/
theorem padded_lt {a b : Nat} (hb : b < 10 ^ w) (h : a < b) : padded w a < padded w b := by
  induction w generalizing a b with
  | zero => omega
  | succ w ih =>
    rw [padded, padded]
    rcases Nat.lt_or_ge (a / 10) (b / 10) with hlt | hge
    · have hdiv : b / 10 < 10 ^ w := by
        rw [Nat.div_lt_iff_lt_mul (by decide)]
        rw [Nat.pow_succ] at hb
        exact hb
      exact append_lt_append (by rw [padded_length, padded_length]) (ih hdiv hlt) _ _
    · -- the leading digits agree, so the last ones decide
      have heq : a / 10 = b / 10 := by omega
      have hdigit : digitByte (a % 10) < digitByte (b % 10) := by
        rw [UInt8.lt_iff_toNat_lt, digitByte_toNat (by omega), digitByte_toNat (by omega)]
        omega
      rw [heq]
      exact List.append_left_lt (List.cons_lt_cons_iff.mpr (Or.inl hdigit))

end Usk
