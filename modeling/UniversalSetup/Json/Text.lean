import UniversalSetup.Json.Roundtrip

/-!
# The text of a value

What a canonical text tells about the strings inside it: none of them is longer than the text, and
the text is valid UTF-8 when they all are. A context is recorded as a string of its canonical text,
so both are needed to read it back.
-/

namespace Usk.Json

/-! ## Lengths -/

theorem escapeByte_length_pos (c : UInt8) : 1 ≤ (escapeByte c).length := by
  rcases escapeByte_cases c with ⟨x, -, h⟩ | ⟨-, h⟩ | ⟨-, -, -, h⟩ <;> rw [h] <;> simp

theorem length_le_escaped (s : Bytes) : s.length ≤ (escaped s).length := by
  have hbody : ∀ t : Bytes, t.length ≤ (t.flatMap escapeByte).length := by
    intro t
    induction t with
    | nil => simp
    | cons c rest ih =>
      have := escapeByte_length_pos c
      rw [List.flatMap_cons, List.length_append, List.length_cons]
      omega
  have := hbody s
  rw [escaped, List.length_cons, List.length_append]
  omega

theorem canonicalItems_length : ∀ {vs : List Value} {v : Value}, v ∈ vs →
    (canonical v).length ≤ (canonicalItems vs).length
  | [], _, h => absurd h List.not_mem_nil
  | w :: rest, v, h => by
    rw [canonicalItems, List.length_append]
    rcases List.mem_cons.mp h with rfl | h
    · omega
    · have := canonicalItems_length h
      rw [if_neg (by simp [List.ne_nil_of_mem h]), List.length_cons]
      omega

theorem canonicalMembers_length : ∀ {ms : List (Bytes × Value)} {m : Bytes × Value}, m ∈ ms →
    (escaped m.1).length ≤ (canonicalMembers ms).length ∧
      (canonical m.2).length ≤ (canonicalMembers ms).length
  | [], _, h => absurd h List.not_mem_nil
  | (k, v) :: rest, m, h => by
    rw [canonicalMembers]
    simp only [List.length_append, List.length_cons]
    rcases List.mem_cons.mp h with rfl | h
    · dsimp only
      exact ⟨by omega, by omega⟩
    · obtain ⟨h1, h2⟩ := canonicalMembers_length h
      rw [if_neg (by simp [List.ne_nil_of_mem h]), List.length_cons]
      exact ⟨by omega, by omega⟩

/-- No byte needs more than six. -/
theorem escaped_length_le (s : Bytes) : (escaped s).length ≤ 6 * s.length + 2 := by
  have hbyte : ∀ c : UInt8, (escapeByte c).length ≤ 6 := by
    intro c
    rcases escapeByte_cases c with ⟨x, -, h⟩ | ⟨-, h⟩ | ⟨-, -, -, h⟩ <;> rw [h] <;> simp
  have hbody : (s.flatMap escapeByte).length ≤ 6 * s.length := by
    induction s with
    | nil => simp
    | cons c rest ih =>
      have := hbyte c
      rw [List.flatMap_cons, List.length_append, List.length_cons]
      omega
  rw [escaped, List.length_cons, List.length_append, List.length_singleton]
  omega

theorem canonicalMembers_length_le : ∀ ms : List (Bytes × Value), (canonicalMembers ms).length ≤
    (ms.map fun m => (escaped m.1).length + (canonical m.2).length + 2).sum
  | [] => Nat.le_refl 0
  | (k, v) :: rest => by
    have ih := canonicalMembers_length_le rest
    rw [canonicalMembers, List.map_cons, List.sum_cons]
    simp only [List.length_append, List.length_cons]
    split
    · rw [List.length_nil]
      omega
    · rw [List.length_cons]
      omega

/-- No string of a value is longer than the text of the value. -/
theorem allStrings_length (v : Value) :
    AllStrings (fun s => s.length ≤ (canonical v).length) v := by
  induction v using Value.induction with
  | null => exact trivial
  | boolean b => exact trivial
  | unsigned n => exact trivial
  | string s => exact length_le_escaped s
  | array items ih =>
    rw [AllStrings, allStringsItems_iff]
    intro v hv
    refine (ih v hv).mono fun s hs => hs.trans ?_
    have := canonicalItems_length hv
    rw [canonical, List.length_cons, List.length_append]
    omega
  | object members ih =>
    rw [AllStrings, allStringsMembers_iff]
    intro m hm
    obtain ⟨h1, h2⟩ := canonicalMembers_length hm
    have hle : (canonicalMembers members).length ≤ (canonical (.object members)).length := by
      rw [canonical, List.length_cons, List.length_append]
      omega
    exact ⟨(length_le_escaped m.1).trans (h1.trans hle),
      (ih m hm).mono fun s hs => hs.trans (h2.trans hle)⟩

/-! ## UTF-8 -/

theorem hexByte_ascii {d : Nat} (h : d < 16) : hexByte d ≤ 0x7f := by
  have hall : ∀ e ∈ List.range 16, hexByte e ≤ 0x7f := by decide
  exact hall d (List.mem_range.mpr h)

/-- The escape of an ASCII byte is ASCII; other bytes stand for themselves. -/
theorem escapeByte_ascii {c : UInt8} (hc : c ≤ 0x7f) : ∀ x ∈ escapeByte c, x ≤ 0x7f := by
  rcases escapeByte_cases c with ⟨y, hy, h⟩ | ⟨-, h⟩ | ⟨-, -, -, h⟩ <;> rw [h]
  · have hshort : (shortEscapes.all fun p => decide (p.2 ≤ 0x7f)) = true := by decide
    have hy' : y ≤ 0x7f := of_decide_eq_true (List.all_eq_true.mp hshort _ hy)
    intro x hx
    simp only [List.mem_cons, List.not_mem_nil, or_false] at hx
    rcases hx with rfl | rfl
    · decide
    · exact hy'
  · have h1 : hexByte (c.toNat / 16) ≤ 0x7f := hexByte_ascii (by have := c.toNat_lt; omega)
    have h2 : hexByte (c.toNat % 16) ≤ 0x7f := hexByte_ascii (Nat.mod_lt _ (by decide))
    intro x hx
    simp only [List.mem_cons, List.not_mem_nil, or_false] at hx
    rcases hx with rfl | rfl | rfl | rfl | rfl | rfl
    · decide
    · decide
    · decide
    · decide
    · exact h1
    · exact h2
  · intro x hx
    rw [List.mem_singleton.mp hx]
    exact hc

theorem escapeByte_of_not_ascii {c : UInt8} (hc : ¬c ≤ 0x7f) : escapeByte c = [c] := by
  rcases escapeByte_cases c with ⟨y, hy, -⟩ | ⟨h, -⟩ | ⟨-, -, -, h⟩
  · have hshort : (shortEscapes.all fun p => decide (p.1 ≤ 0x7f)) = true := by decide
    exact absurd (of_decide_eq_true (List.all_eq_true.mp hshort _ hy)) hc
  · rw [UInt8.lt_iff_toNat_lt] at h
    rw [UInt8.le_iff_toNat_le] at hc
    exact absurd (Nat.le_of_lt (Nat.lt_trans h (by decide))) hc
  · exact h

theorem not_ascii_of_isContinuation {c : UInt8} (h : isContinuation c = true) : ¬c ≤ 0x7f := by
  simp only [isContinuation, Bool.and_eq_true, decide_eq_true_eq, UInt8.le_iff_toNat_le] at h
  rw [UInt8.le_iff_toNat_le]
  have h1 : (0x80 : UInt8).toNat = 0x80 := rfl
  have h2 : (0x7f : UInt8).toNat = 0x7f := rfl
  omega

/-- Escaping leaves the multi-byte sequences of a text as they are. -/
theorem validUtf8_flatMap_escapeByte {s : Bytes} (h : validUtf8 s = true) :
    validUtf8 (s.flatMap escapeByte) = true := by
  fun_induction validUtf8 s with
  | case1 => rfl
  | case2 first rest hf ih =>
    rw [List.flatMap_cons]
    exact validUtf8_append (validUtf8_of_ascii (escapeByte_ascii hf)) (ih h)
  | case3 first h1 h2 c1 rest ih =>
    simp only [Bool.and_eq_true] at h
    simp only [List.flatMap_cons, escapeByte_of_not_ascii h1,
      escapeByte_of_not_ascii (not_ascii_of_isContinuation h.1.1), List.cons_append,
      List.nil_append]
    rw [validUtf8.eq_def]
    simp only [if_neg h1, if_pos h2]
    simp only [Bool.and_eq_true]
    exact ⟨h.1, ih h.2⟩
  | case5 first h1 h2 h3 c1 c2 rest ih =>
    simp only [Bool.and_eq_true] at h
    simp only [List.flatMap_cons, escapeByte_of_not_ascii h1,
      escapeByte_of_not_ascii (not_ascii_of_isContinuation h.1.1.1),
      escapeByte_of_not_ascii (not_ascii_of_isContinuation h.1.1.2), List.cons_append,
      List.nil_append]
    rw [validUtf8.eq_def]
    simp only [if_neg h1, if_neg h2, if_pos h3]
    simp only [Bool.and_eq_true]
    exact ⟨h.1, ih h.2⟩
  | case7 first h1 h2 h3 h4 c1 c2 c3 rest ih =>
    simp only [Bool.and_eq_true] at h
    simp only [List.flatMap_cons, escapeByte_of_not_ascii h1,
      escapeByte_of_not_ascii (not_ascii_of_isContinuation h.1.1.1.1),
      escapeByte_of_not_ascii (not_ascii_of_isContinuation h.1.1.1.2),
      escapeByte_of_not_ascii (not_ascii_of_isContinuation h.1.1.2), List.cons_append,
      List.nil_append]
    rw [validUtf8.eq_def]
    simp only [if_neg h1, if_neg h2, if_neg h3, if_pos h4]
    simp only [Bool.and_eq_true]
    exact ⟨h.1, ih h.2⟩
  | case4 => cases h
  | case6 => cases h
  | case8 => cases h
  | case9 => cases h

theorem validUtf8_ascii_cons {c : UInt8} {t : Bytes} (hc : c ≤ 0x7f) (h : validUtf8 t = true) :
    validUtf8 (c :: t) = true := by
  rwa [validUtf8_cons_ascii hc]

theorem validUtf8_escaped {s : Bytes} (h : validUtf8 s = true) : validUtf8 (escaped s) = true :=
  validUtf8_ascii_cons (by decide) (validUtf8_append (validUtf8_flatMap_escapeByte h) (by decide))

theorem validUtf8_canonicalItems : ∀ {vs : List Value},
    (∀ v ∈ vs, validUtf8 (canonical v) = true) → validUtf8 (canonicalItems vs) = true
  | [], _ => rfl
  | v :: rest, h => by
    have hrest := validUtf8_canonicalItems fun w hw => h w (List.mem_cons_of_mem _ hw)
    rw [canonicalItems]
    refine validUtf8_append (h v List.mem_cons_self) ?_
    split
    · rfl
    · exact validUtf8_ascii_cons (by decide) hrest

theorem validUtf8_canonicalMembers : ∀ {ms : List (Bytes × Value)},
    (∀ m ∈ ms, validUtf8 m.1 = true ∧ validUtf8 (canonical m.2) = true) →
    validUtf8 (canonicalMembers ms) = true
  | [], _ => rfl
  | (k, v) :: rest, h => by
    have hrest := validUtf8_canonicalMembers fun m hm => h m (List.mem_cons_of_mem _ hm)
    obtain ⟨hk, hv⟩ := h (k, v) List.mem_cons_self
    rw [canonicalMembers]
    refine validUtf8_append (validUtf8_escaped hk) (validUtf8_ascii_cons (by decide)
      (validUtf8_append hv ?_))
    split
    · rfl
    · exact validUtf8_ascii_cons (by decide) hrest

/-- The text of a value whose strings are valid UTF-8 is valid UTF-8. -/
theorem validUtf8_canonical {v : Value} (h : AllStrings (fun s => validUtf8 s = true) v) :
    validUtf8 (canonical v) = true := by
  induction v using Value.induction with
  | null => decide
  | boolean b => cases b <;> decide
  | unsigned n =>
    rw [canonical]
    refine validUtf8_of_ascii fun c hc => ?_
    have hdigit := isDigit_of_mem_decimal hc
    simp only [isDigit, Bool.and_eq_true, decide_eq_true_eq] at hdigit
    exact UInt8.le_trans hdigit.2 (by decide)
  | string s => exact validUtf8_escaped h
  | array items ih =>
    rw [AllStrings, allStringsItems_iff] at h
    rw [canonical]
    exact validUtf8_ascii_cons (by decide) (validUtf8_append
      (validUtf8_canonicalItems fun v hv => ih v hv (h v hv)) (by decide))
  | object members ih =>
    rw [AllStrings, allStringsMembers_iff] at h
    rw [canonical]
    exact validUtf8_ascii_cons (by decide) (validUtf8_append
      (validUtf8_canonicalMembers fun m hm => ⟨(h m hm).1, ih m hm (h m hm).2⟩) (by decide))

end Usk.Json
