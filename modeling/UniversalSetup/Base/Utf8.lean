import UniversalSetup.Base.Bytes

/-!
# UTF-8

`valid_utf8` of the path helpers and `append_utf8` of the JSON reader.
-/

namespace Usk

variable {c : UInt8} {s : Bytes}

/-- `(continuation & 0xc0) == 0x80`. -/
def isContinuation (c : UInt8) : Bool :=
  0x80 ≤ c && c ≤ 0xbf

/-- The six payload bits of a continuation byte, shifted into the code point. -/
def shiftIn (codepoint : Nat) (c : UInt8) : Nat :=
  codepoint * 64 + c.toNat % 64

/-- The range check after a multi-byte sequence: overlong, too large, or a surrogate. -/
def badCodepoint (remaining codepoint : Nat) : Bool :=
  (remaining == 2 && codepoint < 0x800) || (remaining == 3 && codepoint < 0x10000) ||
    0x10ffff < codepoint || (0xd800 ≤ codepoint && codepoint ≤ 0xdfff)

/--
`valid_utf8`. The loop reads one lead byte and the one to three continuation bytes it announces.
A sequence cut off by the end of the input is invalid.
-/
def validUtf8 : Bytes → Bool
  | [] => true
  | first :: rest =>
    if first ≤ 0x7f then validUtf8 rest
    else if 0xc2 ≤ first && first ≤ 0xdf then
      match rest with
      | c1 :: rest =>
        isContinuation c1 && !badCodepoint 1 (shiftIn (first.toNat % 32) c1) && validUtf8 rest
      | _ => false
    else if 0xe0 ≤ first && first ≤ 0xef then
      match rest with
      | c1 :: c2 :: rest =>
        isContinuation c1 && isContinuation c2 &&
          !badCodepoint 2 (shiftIn (shiftIn (first.toNat % 16) c1) c2) && validUtf8 rest
      | _ => false
    else if 0xf0 ≤ first && first ≤ 0xf4 then
      match rest with
      | c1 :: c2 :: c3 :: rest =>
        isContinuation c1 && isContinuation c2 && isContinuation c3 &&
          !badCodepoint 3 (shiftIn (shiftIn (shiftIn (first.toNat % 8) c1) c2) c3) &&
          validUtf8 rest
      | _ => false
    else false

/-- `append_utf8`. -/
def appendUtf8 (output : Bytes) (codepoint : Nat) : Bytes :=
  if codepoint ≤ 0x7f then output ++ [UInt8.ofNat codepoint]
  else if codepoint ≤ 0x7ff then
    output ++ [UInt8.ofNat (0xc0 + codepoint / 64), UInt8.ofNat (0x80 + codepoint % 64)]
  else if codepoint ≤ 0xffff then
    output ++ [UInt8.ofNat (0xe0 + codepoint / 4096), UInt8.ofNat (0x80 + codepoint / 64 % 64),
      UInt8.ofNat (0x80 + codepoint % 64)]
  else
    output ++ [UInt8.ofNat (0xf0 + codepoint / 262144),
      UInt8.ofNat (0x80 + codepoint / 4096 % 64), UInt8.ofNat (0x80 + codepoint / 64 % 64),
      UInt8.ofNat (0x80 + codepoint % 64)]

/-! ## ASCII -/

@[simp] theorem validUtf8_nil : validUtf8 [] = true := rfl

theorem validUtf8_cons_ascii {rest : Bytes} (h : c ≤ 0x7f) :
    validUtf8 (c :: rest) = validUtf8 rest := by
  rw [validUtf8.eq_def]
  simp only [if_pos h]

/-- Text made of ASCII bytes may be put in front without changing the verdict. -/
theorem validUtf8_ascii_append : ∀ {pre : Bytes} (rest : Bytes), (∀ c ∈ pre, c ≤ 0x7f) →
    validUtf8 (pre ++ rest) = validUtf8 rest
  | [], _, _ => rfl
  | c :: pre, rest, h => by
    rw [List.cons_append, validUtf8_cons_ascii (h c List.mem_cons_self)]
    exact validUtf8_ascii_append rest fun d hd => h d (List.mem_cons_of_mem _ hd)

theorem validUtf8_of_ascii (h : ∀ c ∈ s, c ≤ 0x7f) : validUtf8 s = true := by
  have := validUtf8_ascii_append [] h
  simpa using this

/-! ## Concatenation -/

theorem validUtf8_append {a b : Bytes} (ha : validUtf8 a = true) (hb : validUtf8 b = true) :
    validUtf8 (a ++ b) = true := by
  fun_induction validUtf8 a with
  | case1 => exact hb
  | case2 first rest h ih => rw [List.cons_append, validUtf8_cons_ascii h, ih ha]
  | case3 first h1 h2 c1 rest ih =>
    simp only [Bool.and_eq_true] at ha
    rw [List.cons_append, validUtf8.eq_def]
    simp only [if_neg h1, if_pos h2, List.cons_append]
    simp only [Bool.and_eq_true]
    exact ⟨ha.1, ih ha.2⟩
  | case4 => cases ha
  | case5 first h1 h2 h3 c1 c2 rest ih =>
    simp only [Bool.and_eq_true] at ha
    rw [List.cons_append, validUtf8.eq_def]
    simp only [if_neg h1, if_neg h2, if_pos h3, List.cons_append]
    simp only [Bool.and_eq_true]
    exact ⟨ha.1, ih ha.2⟩
  | case6 => cases ha
  | case7 first h1 h2 h3 h4 c1 c2 c3 rest ih =>
    simp only [Bool.and_eq_true] at ha
    rw [List.cons_append, validUtf8.eq_def]
    simp only [if_neg h1, if_neg h2, if_neg h3, if_pos h4, List.cons_append]
    simp only [Bool.and_eq_true]
    exact ⟨ha.1, ih ha.2⟩
  | case8 => cases ha
  | case9 => cases ha

/-! ## Short ASCII texts -/

/-- At most `n` bytes, all of them ASCII: what every checked identifier and digest is. -/
def ShortAscii (n : Nat) (s : Bytes) : Prop :=
  s.length ≤ n ∧ ∀ c ∈ s, c ≤ 0x7f

theorem isAlnum_ascii (h : isAlnum c = true) : c ≤ 0x7f := by
  simp only [isAlnum, isDigit, Bool.or_eq_true, Bool.and_eq_true, decide_eq_true_eq] at h
  rcases h with (⟨-, h⟩ | ⟨-, h⟩) | ⟨-, h⟩ <;> exact UInt8.le_trans h (by decide)

theorem isHex_ascii (h : isHex c = true) : c ≤ 0x7f := by
  simp only [isHex, isDigit, Bool.or_eq_true, Bool.and_eq_true, decide_eq_true_eq] at h
  rcases h with ⟨-, h⟩ | ⟨-, h⟩ <;> exact UInt8.le_trans h (by decide)

theorem isDigit_ascii (h : isDigit c = true) : c ≤ 0x7f :=
  isAlnum_ascii (by simp [isAlnum, h])

theorem shortAscii_identifier (h : validIdentifier s = true) : ShortAscii 128 s := by
  simp only [validIdentifier, Bool.and_eq_true, decide_eq_true_eq, List.all_eq_true,
    Bool.or_eq_true, beq_iff_eq] at h
  refine ⟨h.1.2, fun c hc => ?_⟩
  rcases h.2 c hc with ((h | rfl) | rfl) | rfl
  · exact isAlnum_ascii h
  · decide
  · decide
  · decide

theorem shortAscii_sha256 (h : validSha256 s = true) : ShortAscii 64 s := by
  simp only [validSha256, Bool.and_eq_true, beq_iff_eq, List.all_eq_true] at h
  exact ⟨h.1.le, fun c hc => isHex_ascii (h.2 c hc)⟩

theorem shortAscii_nativeIdentity (h : nativeIdentity s = true) : ShortAscii 33 s := by
  simp only [nativeIdentity, Bool.and_eq_true, beq_iff_eq, List.all_eq_true, Bool.or_eq_true] at h
  refine ⟨h.1.1.1.le, fun c hc => ?_⟩
  rcases h.2 c hc with rfl | h
  · decide
  · exact isHex_ascii h

/-- Literals of the source are short ASCII texts. -/
theorem shortAscii_literal (s : String)
    (h : (decide ((ascii s).length ≤ 64) && (ascii s).all fun c => decide (c ≤ 0x7f)) = true) :
    ShortAscii 64 (ascii s) := by
  simp only [Bool.and_eq_true, decide_eq_true_eq, List.all_eq_true] at h
  exact h

theorem shortAscii_decimal (n : UInt64) : ShortAscii 20 (decimal n.toNat) :=
  ⟨decimal_length_le (w := 19) (n.toNat_lt.trans (by decide)),
    fun _ hc => isDigit_ascii (isDigit_of_mem_decimal hc)⟩

end Usk
