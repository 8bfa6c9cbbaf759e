import UniversalSetup.Base.Utf8

/-!
# UTF-8 and Unicode scalar values

`Char` is the type of Unicode scalar values and `String.utf8EncodeChar` their UTF-8 form. The two
functions of the runtime are compared with it: `append_utf8` writes that form, and `valid_utf8`
accepts exactly the concatenations of such forms.
-/

namespace Usk

variable {c : Char} {b c1 : UInt8} {s : Bytes}

/-- The UTF-8 encoding form of a text. -/
def utf8 (cs : List Char) : Bytes :=
  cs.flatMap String.utf8EncodeChar

@[simp] theorem utf8_nil : utf8 [] = [] := rfl

@[simp] theorem utf8_cons (c : Char) (cs : List Char) :
    utf8 (c :: cs) = String.utf8EncodeChar c ++ utf8 cs := rfl

theorem char_lt (c : Char) : c.toNat < 0x110000 := by
  have := c.valid
  simp only [UInt32.isValidChar, Nat.isValidChar] at this
  simp only [Char.toNat]
  omega

theorem char_not_surrogate (c : Char) : ¬(0xd800 ≤ c.toNat ∧ c.toNat ≤ 0xdfff) := by
  have := c.valid
  simp only [UInt32.isValidChar, Nat.isValidChar] at this
  simp only [Char.toNat]
  omega

/-- A code point outside the surrogates is a scalar value. -/
theorem exists_char {n : Nat} (hn : n < 0x110000) (hs : ¬(0xd800 ≤ n ∧ n ≤ 0xdfff)) :
    ∃ c : Char, c.toNat = n := by
  have hv : n.isValidChar := by
    unfold Nat.isValidChar
    omega
  exact ⟨Char.ofNatAux n hv, rfl⟩

/-! ## The four lengths -/

theorem encode_one (h : c.toNat ≤ 0x7f) : String.utf8EncodeChar c = [UInt8.ofNat c.toNat] := by
  simp only [String.utf8EncodeChar, Char.toNat_val]
  exact if_pos h

theorem encode_two (h1 : ¬c.toNat ≤ 0x7f) (h2 : c.toNat ≤ 0x7ff) :
    String.utf8EncodeChar c
      = [UInt8.ofNat (0xc0 + c.toNat / 64), UInt8.ofNat (0x80 + c.toNat % 64)] := by
  have h3 : c.toNat / 64 % 32 + 192 = 0xc0 + c.toNat / 64 := by omega
  simp only [String.utf8EncodeChar, Char.toNat_val]
  rw [if_neg h1, if_pos h2, h3, Nat.add_comm (c.toNat % 64)]

theorem encode_three (h1 : ¬c.toNat ≤ 0x7ff) (h2 : c.toNat ≤ 0xffff) :
    String.utf8EncodeChar c = [UInt8.ofNat (0xe0 + c.toNat / 4096),
      UInt8.ofNat (0x80 + c.toNat / 64 % 64), UInt8.ofNat (0x80 + c.toNat % 64)] := by
  have h3 : c.toNat / 4096 % 16 + 224 = 0xe0 + c.toNat / 4096 := by omega
  have h0 : ¬c.toNat ≤ 0x7f := by omega
  simp only [String.utf8EncodeChar, Char.toNat_val]
  rw [if_neg h0, if_neg h1, if_pos h2, h3, Nat.add_comm (c.toNat % 64),
    Nat.add_comm (c.toNat / 64 % 64)]

theorem encode_four (h : ¬c.toNat ≤ 0xffff) :
    String.utf8EncodeChar c = [UInt8.ofNat (0xf0 + c.toNat / 262144),
      UInt8.ofNat (0x80 + c.toNat / 4096 % 64), UInt8.ofNat (0x80 + c.toNat / 64 % 64),
      UInt8.ofNat (0x80 + c.toNat % 64)] := by
  have hlt := char_lt c
  have h3 : c.toNat / 262144 % 8 + 240 = 0xf0 + c.toNat / 262144 := by omega
  have h0 : ¬c.toNat ≤ 0x7f := by omega
  have h1 : ¬c.toNat ≤ 0x7ff := by omega
  simp only [String.utf8EncodeChar, Char.toNat_val]
  rw [if_neg h0, if_neg h1, if_neg h, h3, Nat.add_comm (c.toNat % 64),
    Nat.add_comm (c.toNat / 64 % 64), Nat.add_comm (c.toNat / 4096 % 64)]

/-- `append_utf8` appends the UTF-8 form of the code point. -/
theorem appendUtf8_char (output : Bytes) (c : Char) :
    appendUtf8 output c.toNat = output ++ String.utf8EncodeChar c := by
  unfold appendUtf8
  split
  · next h => rw [encode_one h]
  · next h1 =>
    split
    · next h2 => rw [encode_two h1 h2]
    · next h2 =>
      split
      · next h3 => rw [encode_three h2 h3]
      · next h3 => rw [encode_four h3]

/-! ## Validity -/

theorem byte_between {low high : UInt8} :
    (low ≤ b && b ≤ high) = true ↔ low.toNat ≤ b.toNat ∧ b.toNat ≤ high.toNat := by
  simp only [Bool.and_eq_true, decide_eq_true_eq, UInt8.le_iff_toNat_le]

theorem isContinuation_iff {c : UInt8} :
    isContinuation c = true ↔ 0x80 ≤ c.toNat ∧ c.toNat ≤ 0xbf :=
  byte_between

/-- A byte above a range is not in it. -/
theorem not_byte_between {low high : UInt8} (h : high.toNat < b.toNat) :
    ¬(low ≤ b && b ≤ high) = true :=
  fun hb => absurd (byte_between.mp hb).2 (Nat.not_le.mpr h)

theorem not_ascii_of_lt (h : 0x7f < b.toNat) : ¬b ≤ 0x7f := by
  rw [UInt8.le_iff_toNat_le]
  exact Nat.not_le.mpr h

theorem badCodepoint_eq_false {remaining codepoint : Nat} :
    badCodepoint remaining codepoint = false ↔ ¬(remaining = 2 ∧ codepoint < 0x800) ∧
      ¬(remaining = 3 ∧ codepoint < 0x10000) ∧ codepoint < 0x110000 ∧
      ¬(0xd800 ≤ codepoint ∧ codepoint ≤ 0xdfff) := by
  simp only [badCodepoint, Bool.or_eq_false_iff, Bool.and_eq_false_iff, beq_eq_false_iff_ne,
    decide_eq_false_iff_not]
  omega

/-- A lead byte of two, the bounds as numbers. -/
theorem validUtf8_two (h1 : 0xc2 ≤ b.toNat) (h2 : b.toNat ≤ 0xdf) :
    validUtf8 (b :: c1 :: s) = (isContinuation c1 &&
      !badCodepoint 1 (shiftIn (b.toNat % 32) c1) && validUtf8 s) := by
  have hn : ¬b ≤ 0x7f := not_ascii_of_lt (by omega)
  have hp : (0xc2 ≤ b && b ≤ 0xdf) = true := byte_between.mpr ⟨h1, h2⟩
  rw [validUtf8.eq_def]
  simp only [if_neg hn]
  exact if_pos hp

theorem validUtf8_three {c2 : UInt8} (h1 : 0xe0 ≤ b.toNat) (h2 : b.toNat ≤ 0xef) :
    validUtf8 (b :: c1 :: c2 :: s) = (isContinuation c1 &&
      isContinuation c2 && !badCodepoint 2 (shiftIn (shiftIn (b.toNat % 16) c1) c2) &&
      validUtf8 s) := by
  have hn : ¬b ≤ 0x7f := not_ascii_of_lt (by omega)
  have hn' : ¬(0xc2 ≤ b && b ≤ 0xdf) = true :=
    not_byte_between (Nat.lt_of_lt_of_le (by decide) h1)
  have hp : (0xe0 ≤ b && b ≤ 0xef) = true := byte_between.mpr ⟨h1, h2⟩
  rw [validUtf8.eq_def]
  simp only [if_neg hn, if_neg hn']
  exact if_pos hp

theorem validUtf8_four {c2 c3 : UInt8} (h1 : 0xf0 ≤ b.toNat) (h2 : b.toNat ≤ 0xf4) :
    validUtf8 (b :: c1 :: c2 :: c3 :: s) = (isContinuation c1 &&
      isContinuation c2 && isContinuation c3 &&
      !badCodepoint 3 (shiftIn (shiftIn (shiftIn (b.toNat % 8) c1) c2) c3) && validUtf8 s) := by
  have hn : ¬b ≤ 0x7f := not_ascii_of_lt (by omega)
  have hn' : ¬(0xc2 ≤ b && b ≤ 0xdf) = true :=
    not_byte_between (Nat.lt_of_lt_of_le (by decide) h1)
  have hn'' : ¬(0xe0 ≤ b && b ≤ 0xef) = true :=
    not_byte_between (Nat.lt_of_lt_of_le (by decide) h1)
  have hp : (0xf0 ≤ b && b ≤ 0xf4) = true := byte_between.mpr ⟨h1, h2⟩
  rw [validUtf8.eq_def]
  simp only [if_neg hn, if_neg hn', if_neg hn'']
  exact if_pos hp

/-- The continuation byte with six given bits. -/
theorem isContinuation_ofNat (n : Nat) : isContinuation (UInt8.ofNat (0x80 + n % 64)) = true := by
  rw [isContinuation_iff, UInt8.toNat_ofNat_of_lt' (show _ < 256 by omega)]
  omega

theorem shiftIn_ofNat (codepoint n : Nat) :
    shiftIn codepoint (UInt8.ofNat (0x80 + n % 64)) = codepoint * 64 + n % 64 := by
  rw [shiftIn, UInt8.toNat_ofNat_of_lt' (show _ < 256 by omega)]
  omega

theorem toNat_continuation (n : Nat) : 0x80 ≤ (UInt8.ofNat (0x80 + n % 64)).toNat :=
  (isContinuation_iff.mp (isContinuation_ofNat n)).1

/-- A character beyond ASCII has no ASCII byte in its form. -/
theorem encode_high (h1 : ¬c.toNat ≤ 0x7f) : ∀ b ∈ String.utf8EncodeChar c, 0x80 ≤ b.toNat := by
  have hlt := char_lt c
  by_cases h2 : c.toNat ≤ 0x7ff
  · rw [encode_two h1 h2]
    simp only [List.forall_mem_cons, UInt8.toNat_ofNat_of_lt'
      (show 0xc0 + c.toNat / 64 < 256 by omega)]
    exact ⟨by omega, toNat_continuation _, by simp⟩
  by_cases h3 : c.toNat ≤ 0xffff
  · rw [encode_three h2 h3]
    simp only [List.forall_mem_cons, UInt8.toNat_ofNat_of_lt'
      (show 0xe0 + c.toNat / 4096 < 256 by omega)]
    exact ⟨by omega, toNat_continuation _, toNat_continuation _, by simp⟩
  · rw [encode_four h3]
    simp only [List.forall_mem_cons, UInt8.toNat_ofNat_of_lt'
      (show 0xf0 + c.toNat / 262144 < 256 by omega)]
    exact ⟨by omega, toNat_continuation _, toNat_continuation _, toNat_continuation _, by simp⟩

/-- The form of a scalar value may stand in front of a text without changing the verdict. -/
theorem validUtf8_encode_append (c : Char) (s : Bytes) :
    validUtf8 (String.utf8EncodeChar c ++ s) = validUtf8 s := by
  have hlt := char_lt c
  have hsur := char_not_surrogate c
  by_cases h1 : c.toNat ≤ 0x7f
  · rw [encode_one h1, List.singleton_append, validUtf8_cons_ascii]
    rw [UInt8.le_iff_toNat_le, UInt8.toNat_ofNat_of_lt' (show _ < 256 by omega)]
    exact h1
  by_cases h2 : c.toNat ≤ 0x7ff
  · have hb : (UInt8.ofNat (0xc0 + c.toNat / 64)).toNat = 0xc0 + c.toNat / 64 :=
      UInt8.toNat_ofNat_of_lt' (show _ < 256 by omega)
    have hgood : badCodepoint 1 ((0xc0 + c.toNat / 64) % 32 * 64 + c.toNat % 64) = false := by
      rw [badCodepoint_eq_false]
      omega
    rw [encode_two h1 h2, List.cons_append, List.singleton_append,
      validUtf8_two (by omega) (by omega), hb, isContinuation_ofNat, shiftIn_ofNat, hgood]
    rfl
  by_cases h3 : c.toNat ≤ 0xffff
  · have hb : (UInt8.ofNat (0xe0 + c.toNat / 4096)).toNat = 0xe0 + c.toNat / 4096 :=
      UInt8.toNat_ofNat_of_lt' (show _ < 256 by omega)
    have hgood : badCodepoint 2 (((0xe0 + c.toNat / 4096) % 16 * 64 + c.toNat / 64 % 64) * 64
        + c.toNat % 64) = false := by
      rw [badCodepoint_eq_false]
      omega
    rw [encode_three h2 h3, List.cons_append, List.cons_append, List.singleton_append,
      validUtf8_three (by omega) (by omega), hb, isContinuation_ofNat, isContinuation_ofNat,
      shiftIn_ofNat, shiftIn_ofNat, hgood]
    rfl
  · have hb : (UInt8.ofNat (0xf0 + c.toNat / 262144)).toNat = 0xf0 + c.toNat / 262144 :=
      UInt8.toNat_ofNat_of_lt' (show _ < 256 by omega)
    have hgood : badCodepoint 3 ((((0xf0 + c.toNat / 262144) % 8 * 64 + c.toNat / 4096 % 64) * 64
        + c.toNat / 64 % 64) * 64 + c.toNat % 64) = false := by
      rw [badCodepoint_eq_false]
      omega
    rw [encode_four h3, List.cons_append, List.cons_append, List.cons_append,
      List.singleton_append, validUtf8_four (by omega) (by omega), hb, isContinuation_ofNat,
      isContinuation_ofNat, isContinuation_ofNat, shiftIn_ofNat, shiftIn_ofNat, shiftIn_ofNat,
      hgood]
    rfl

/-- A text that starts with `b`, taken apart after its first scalar value. -/
structure FirstChar (b : UInt8) (s : Bytes) (c : Char) (more rest : Bytes) : Prop where
  encoded : String.utf8EncodeChar c = b :: more
  split : s = more ++ rest
  continued : ∀ x ∈ more, isContinuation x = true
  valid : validUtf8 rest = true

theorem ofNat_eq {n : Nat} (h : n = b.toNat) : UInt8.ofNat n = b := by
  rw [h, UInt8.ofNat_toNat]

theorem exists_firstChar (h : validUtf8 (b :: s) = true) :
    ∃ c more rest, FirstChar b s c more rest := by
  have hb := b.toNat_lt
  rw [validUtf8.eq_def] at h
  dsimp only at h
  split at h
  · next h1 =>
    rw [UInt8.le_iff_toNat_le] at h1
    replace h1 : b.toNat ≤ 0x7f := h1
    obtain ⟨c, hc⟩ := exists_char (n := b.toNat) (by omega) (by omega)
    refine ⟨c, [], s, ?_, rfl, by simp, h⟩
    rw [encode_one (by omega), ofNat_eq hc]
  split at h
  · next h1 =>
    obtain ⟨hlow, hhigh⟩ : 0xc2 ≤ b.toNat ∧ b.toNat ≤ 0xdf := byte_between.mp h1
    split at h
    · next c1 rest =>
      simp only [Bool.and_eq_true, Bool.not_eq_true', badCodepoint_eq_false] at h
      obtain ⟨⟨hc1, hgood⟩, hrest⟩ := h
      obtain ⟨c, hc⟩ := exists_char hgood.2.2.1 hgood.2.2.2
      have hr1 := isContinuation_iff.mp hc1
      unfold shiftIn at hc
      refine ⟨c, [c1], rest, ?_, rfl, by simpa using hc1, hrest⟩
      rw [encode_two (by omega) (by omega), ofNat_eq (b := b) (by omega),
        ofNat_eq (b := c1) (by omega)]
    · cases h
  split at h
  · next h1 =>
    obtain ⟨hlow, hhigh⟩ : 0xe0 ≤ b.toNat ∧ b.toNat ≤ 0xef := byte_between.mp h1
    split at h
    · next c1 c2 rest =>
      simp only [Bool.and_eq_true, Bool.not_eq_true', badCodepoint_eq_false] at h
      obtain ⟨⟨⟨hc1, hc2⟩, hgood⟩, hrest⟩ := h
      obtain ⟨c, hc⟩ := exists_char hgood.2.2.1 hgood.2.2.2
      have hr1 := isContinuation_iff.mp hc1
      have hr2 := isContinuation_iff.mp hc2
      have hlong : 0x800 ≤ c.toNat := Nat.not_lt.mp fun hlt => hgood.1 ⟨trivial, hc ▸ hlt⟩
      unfold shiftIn at hc
      refine ⟨c, [c1, c2], rest, ?_, rfl, by simpa using ⟨hc1, hc2⟩, hrest⟩
      rw [encode_three (by omega) (by omega), ofNat_eq (b := b) (by omega),
        ofNat_eq (b := c1) (by omega), ofNat_eq (b := c2) (by omega)]
    · cases h
  split at h
  · next h1 =>
    obtain ⟨hlow, hhigh⟩ : 0xf0 ≤ b.toNat ∧ b.toNat ≤ 0xf4 := byte_between.mp h1
    split at h
    · next c1 c2 c3 rest =>
      simp only [Bool.and_eq_true, Bool.not_eq_true', badCodepoint_eq_false] at h
      obtain ⟨⟨⟨⟨hc1, hc2⟩, hc3⟩, hgood⟩, hrest⟩ := h
      obtain ⟨c, hc⟩ := exists_char hgood.2.2.1 hgood.2.2.2
      have hr1 := isContinuation_iff.mp hc1
      have hr2 := isContinuation_iff.mp hc2
      have hr3 := isContinuation_iff.mp hc3
      have hlong : 0x10000 ≤ c.toNat := Nat.not_lt.mp fun hlt => hgood.2.1 ⟨trivial, hc ▸ hlt⟩
      unfold shiftIn at hc
      refine ⟨c, [c1, c2, c3], rest, ?_, rfl, by simpa using ⟨hc1, hc2, hc3⟩, hrest⟩
      rw [encode_four (by omega), ofNat_eq (b := b) (by omega), ofNat_eq (b := c1) (by omega),
        ofNat_eq (b := c2) (by omega), ofNat_eq (b := c3) (by omega)]
    · cases h
  · cases h

theorem validUtf8_utf8 (cs : List Char) : validUtf8 (utf8 cs) = true := by
  induction cs with
  | nil => rfl
  | cons c cs ih => rw [utf8_cons, validUtf8_encode_append, ih]

/-- A valid text consists of the forms of scalar values. -/
theorem exists_utf8 (h : validUtf8 s = true) : ∃ cs, s = utf8 cs := by
  -- A form can take several bytes, so the induction is on the length.
  induction hn : s.length using Nat.strong_induction_on generalizing s with
  | _ n ih =>
    cases s with
    | nil => exact ⟨[], rfl⟩
    | cons b s =>
      obtain ⟨c, more, rest, hfirst⟩ := exists_firstChar h
      have hshorter : rest.length < n := by
        rw [← hn, hfirst.split, List.length_cons, List.length_append]
        omega
      obtain ⟨cs, hcs⟩ := ih rest.length hshorter hfirst.valid rfl
      refine ⟨c :: cs, ?_⟩
      rw [utf8_cons, hfirst.encoded, ← hcs, hfirst.split, List.cons_append]

/-- `valid_utf8` accepts exactly the concatenations of the forms of scalar values, and `append_utf8`
writes the form of each. -/
theorem valid_utf8_iff_scalar_values :
    (∀ s : Bytes, validUtf8 s = true ↔ ∃ cs : List Char, s = cs.flatMap String.utf8EncodeChar) ∧
    ∀ (output : Bytes) (c : Char),
      appendUtf8 output c.toNat = output ++ String.utf8EncodeChar c := by
  refine ⟨fun s => ⟨exists_utf8, ?_⟩, appendUtf8_char⟩
  rintro ⟨cs, rfl⟩
  exact validUtf8_utf8 cs

end Usk
