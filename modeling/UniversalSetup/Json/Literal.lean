import UniversalSetup.Json.Grammar

/-!
# String literals and Unicode

`Spells` follows the string loop of the reader byte by byte; `StringText` reads a literal by
scalar values. They agree on the literals whose result is UTF-8. Every escape decodes to a whole
encoded character, so a continuation byte of the result always stands in the text as itself.

* `denotes_iff` — the literals that denote a byte string
-/

namespace Usk.Json

variable {n : Nat} {x b c : UInt8} {s e : Bytes}

/-! ## Hexadecimal digits -/

instance (n : Nat) (x : UInt8) : Decidable (HexDigit n x) :=
  inferInstanceAs (Decidable (_ ∨ _))

theorem HexDigit.lt (h : HexDigit n x) : n < 16 := by
  rcases h with h | h
  all_goals
    obtain ⟨hlt, -⟩ := List.getElem?_eq_some_iff.mp h
    exact hlt

theorem hexDigit_lt (h : hexDigit x = .ok n) : n < 16 := by
  rw [hexDigit] at h
  split at h
  · next hr =>
    have : 0x30 ≤ x.toNat ∧ x.toNat ≤ 0x39 := byte_between.mp hr
    cases h
    omega
  split at h
  · next hr =>
    have : 0x61 ≤ x.toNat ∧ x.toNat ≤ 0x66 := byte_between.mp hr
    cases h
    omega
  split at h
  · next hr =>
    have : 0x41 ≤ x.toNat ∧ x.toNat ≤ 0x46 := byte_between.mp hr
    cases h
    omega
  · cases h

theorem hexDigit_iff : hexDigit x = .ok n ↔ HexDigit n x := by
  have hall : ∀ k ∈ List.range 256, ∀ m ∈ List.range 16,
      (hexDigit (UInt8.ofNat k) = .ok m ↔ HexDigit m (UInt8.ofNat k)) := by
    decide +kernel
  have hx := hall x.toNat (List.mem_range.mpr x.toNat_lt)
  rw [UInt8.ofNat_toNat] at hx
  exact ⟨fun h => (hx n (List.mem_range.mpr (hexDigit_lt h))).mp h,
    fun h => (hx n (List.mem_range.mpr h.lt)).mpr h⟩

theorem unicodeEscape_iff {a d : UInt8} :
    unicodeEscape a b c d = .ok n ↔ HexQuad n [a, b, c, d] := by
  constructor
  · intro h
    simp only [unicodeEscape, bind_eq_ok] at h
    obtain ⟨a', ha, b', hb, c', hc, d', hd, h⟩ := h
    cases h
    exact .quad (hexDigit_iff.mp ha) (hexDigit_iff.mp hb) (hexDigit_iff.mp hc)
      (hexDigit_iff.mp hd)
  · intro h
    cases h with
    | quad ha hb hc hd =>
      rw [unicodeEscape, hexDigit_iff.mpr ha, hexDigit_iff.mpr hb, hexDigit_iff.mpr hc,
        hexDigit_iff.mpr hd]
      rfl

theorem HexQuad.split {q : Bytes} (h : HexQuad n q) :
    ∃ a b c d, q = [a, b, c, d] ∧ unicodeEscape a b c d = .ok n := by
  cases h with
  | @quad a b c d w x y z ha hb hc hd =>
    exact ⟨w, x, y, z, rfl, unicodeEscape_iff.mpr (.quad ha hb hc hd)⟩

/-! ## From characters to bytes -/

theorem simpleEscape_of_mem {ch : Char} (h : (ch, x) ∈ escapes) :
    ∃ c, simpleEscape x = some c ∧ String.utf8EncodeChar ch = [c] := by
  simp only [escapes, List.mem_cons, Prod.mk.injEq, List.not_mem_nil, or_false] at h
  rcases h with ⟨rfl, rfl⟩ | ⟨rfl, rfl⟩ | ⟨rfl, rfl⟩ | ⟨rfl, rfl⟩ | ⟨rfl, rfl⟩ | ⟨rfl, rfl⟩ |
    ⟨rfl, rfl⟩ | ⟨rfl, rfl⟩ <;> exact ⟨_, rfl, rfl⟩

theorem spells_high {s e : Bytes} (h : Spells s e) : ∀ {p : Bytes}, (∀ b ∈ p, 0x80 ≤ b.toNat) →
    Spells (p ++ s) (p ++ e)
  | [], _ => h
  | b :: p, hp => by
    have hb : 0x80 ≤ b.toNat := hp b List.mem_cons_self
    refine .plain ?_ ?_ ?_ (spells_high h fun x hx => hp x (List.mem_cons_of_mem _ hx))
    · rw [UInt8.lt_iff_toNat_lt]
      exact Nat.not_lt.mpr (Nat.le_trans (by decide) hb)
    · rintro rfl
      revert hb
      decide
    · rintro rfl
      revert hb
      decide

theorem spells_plain {c : Char} (h1 : ' ' ≤ c) (h2 : c ≠ '"') (h3 : c ≠ '\\') (h : Spells s e) :
    Spells (String.utf8EncodeChar c ++ s) (String.utf8EncodeChar c ++ e) := by
  by_cases hc : c.toNat ≤ 0x7f
  · have hb : (UInt8.ofNat c.toNat).toNat = c.toNat := UInt8.toNat_ofNat_of_lt'
      (show _ < 256 by omega)
    have hne : ∀ d : Char, c ≠ d → ∀ b : UInt8, b.toNat = d.toNat → UInt8.ofNat c.toNat ≠ b := by
      rintro d hd b hbd rfl
      exact hd (Char.toNat_inj.mp (hb.symm.trans hbd))
    rw [encode_one hc]
    refine .plain ?_ (hne _ h2 _ rfl) (hne _ h3 _ rfl) h
    rw [UInt8.lt_iff_toNat_lt, hb]
    exact Nat.not_lt.mpr h1
  · exact spells_high h (encode_high hc)

/-- A literal that denotes characters is decoded to their UTF-8 form. -/
theorem spells_of_stringText {cs : List Char} (h : StringText cs e) : Spells (utf8 cs) e := by
  induction h with
  | nil => exact .nil
  | plain h1 h2 h3 _ ih => exact spells_plain h1 h2 h3 ih
  | short h _ ih =>
    obtain ⟨c, hc, hch⟩ := simpleEscape_of_mem h
    rw [utf8_cons, hch]
    exact .short hc ih
  | @unicode c q e cs hq _ ih =>
    obtain ⟨w, x, y, z, rfl, hu⟩ := hq.split
    have := Spells.unicode hu (char_not_surrogate c) ih
    rw [appendUtf8_char, List.nil_append] at this
    exact this
  | @pair c high low q q' e cs hq hq' hp _ ih =>
    obtain ⟨w, x, y, z, rfl, hu⟩ := hq.split
    obtain ⟨w', x', y', z', rfl, hu'⟩ := hq'.split
    have := Spells.pair hu hp.high_mem hu' hp.low_mem ih
    rw [← hp.scalar, appendUtf8_char, List.nil_append] at this
    exact this

/-! ## From bytes to characters -/

theorem mem_escapes_of_simpleEscape (h : simpleEscape x = some c) :
    ∃ p ∈ escapes, p.2 = x ∧ String.utf8EncodeChar p.1 = [c] := by
  unfold simpleEscape at h
  repeat' (split at h)
  all_goals first
    | contradiction
    | (next hx => subst hx; cases h; decide)

/-- No escape decodes to a text that starts with a continuation byte. -/
theorem appendUtf8_head {codepoint : Nat} (h : codepoint < 0x110000) :
    ∃ b more, appendUtf8 [] codepoint = b :: more ∧ isContinuation b = false := by
  have hlead : ∀ n, n < 256 → ¬(0x80 ≤ n ∧ n ≤ 0xbf) → isContinuation (UInt8.ofNat n) = false := by
    intro n hn hr
    rw [Bool.eq_false_iff, ne_eq, isContinuation_iff, UInt8.toNat_ofNat_of_lt' hn]
    exact hr
  unfold appendUtf8
  split
  · exact ⟨_, _, rfl, hlead _ (by omega) (by omega)⟩
  split
  · exact ⟨_, _, rfl, hlead _ (by omega) (by omega)⟩
  split
  · exact ⟨_, _, rfl, hlead _ (by omega) (by omega)⟩
  · exact ⟨_, _, rfl, hlead _ (by omega) (by omega)⟩

theorem unicodeEscape_lt {a d : UInt8} (h : unicodeEscape a b c d = .ok n) : n < 0x10000 := by
  cases unicodeEscape_iff.mp h with
  | quad ha hb hc hd =>
    have := ha.lt
    have := hb.lt
    have := hc.lt
    have := hd.lt
    omega

/-- A continuation byte of the result stands in the literal as itself. -/
theorem spells_continuation (hb : isContinuation b = true) (h : Spells (b :: s) e) :
    ∃ e', e = b :: e' ∧ Spells s e' := by
  have hlead : ∀ {codepoint : Nat} {s' : Bytes}, codepoint < 0x110000 →
      b :: s ≠ appendUtf8 [] codepoint ++ s' := by
    intro codepoint s' hlt heq
    obtain ⟨c, more, hc, hcont⟩ := appendUtf8_head hlt
    rw [hc, List.cons_append, List.cons.injEq] at heq
    rw [heq.1, hcont] at hb
    cases hb
  generalize hs : b :: s = s0 at h
  cases h with
  | nil => cases hs
  | @plain c s' e' h1 h2 h3 h =>
    cases hs
    exact ⟨e', rfl, h⟩
  | short hx _ =>
    cases hs
    obtain ⟨p, hp, -, henc⟩ := mem_escapes_of_simpleEscape hx
    have hall : ∀ p ∈ escapes, ∀ c ∈ String.utf8EncodeChar p.1, isContinuation c = false := by
      decide +kernel
    rw [hall p hp b (henc ▸ List.mem_singleton_self b)] at hb
    cases hb
  | unicode hu _ _ => exact absurd hs (hlead (Nat.lt_trans (unicodeEscape_lt hu) (by decide)))
  | pair hu hh hl hlow _ => exact absurd hs (hlead (by omega))

theorem spells_continued : ∀ {more s e : Bytes}, (∀ b ∈ more, isContinuation b = true) →
    Spells (more ++ s) e → ∃ e', e = more ++ e' ∧ Spells s e'
  | [], _, e, _, h => ⟨e, rfl, h⟩
  | b :: more, s, e, hmore, h => by
    obtain ⟨e1, rfl, h1⟩ := spells_continuation (hmore b List.mem_cons_self) h
    obtain ⟨e2, rfl, h2⟩ := spells_continued (fun x hx => hmore x (List.mem_cons_of_mem _ hx)) h1
    exact ⟨e2, rfl, h2⟩

/-- The lead byte tells a character apart from the bytes that a literal must escape. -/
theorem plain_of_lead {ch : Char} {more : Bytes} (henc : String.utf8EncodeChar ch = c :: more)
    (h1 : ¬c < 0x20) (h2 : c ≠ 0x22) (h3 : c ≠ 0x5c) : ' ' ≤ ch ∧ ch ≠ '"' ∧ ch ≠ '\\' := by
  refine ⟨?_, ?_, ?_⟩
  · by_contra hlt
    have hch : ch.toNat < 0x20 := Nat.not_le.mp hlt
    rw [encode_one (by omega)] at henc
    cases henc
    rw [UInt8.lt_iff_toNat_lt, UInt8.toNat_ofNat_of_lt' (show _ < 256 by omega)] at h1
    exact h1 hch
  · rintro rfl
    cases henc
    exact h2 rfl
  · rintro rfl
    cases henc
    exact h3 rfl

/-- A decoded literal whose result is UTF-8 denotes characters. -/
theorem stringText_of_spells (n : Nat) : ∀ {s e : Bytes}, e.length ≤ n → Spells s e →
    validUtf8 s = true → ∃ cs, s = utf8 cs ∧ StringText cs e := by
  induction n using Nat.strongRecOn with
  | _ n ih =>
    intro s e hlen h hvalid
    cases h with
    | nil => exact ⟨[], rfl, .nil⟩
    | @plain c s e h1 h2 h3 h =>
      obtain ⟨ch, more, rest, hfirst⟩ := exists_firstChar hvalid
      obtain ⟨hle, hq, hb⟩ := plain_of_lead hfirst.encoded h1 h2 h3
      obtain ⟨e', rfl, h'⟩ := spells_continued hfirst.continued (hfirst.split ▸ h)
      rw [List.length_cons, List.length_append] at hlen
      obtain ⟨cs, rfl, hcs⟩ := ih e'.length (by omega) (Nat.le_refl _) h' hfirst.valid
      refine ⟨ch :: cs, ?_, ?_⟩
      · rw [utf8_cons, hfirst.encoded, hfirst.split, List.cons_append]
      · have := StringText.plain hle hq hb hcs
        rwa [hfirst.encoded, List.cons_append] at this
    | @short c x s e hx h =>
      obtain ⟨p, hp, rfl, henc⟩ := mem_escapes_of_simpleEscape hx
      have hs : validUtf8 s = true := by
        rwa [← List.singleton_append, ← henc, validUtf8_encode_append] at hvalid
      obtain ⟨cs, rfl, hcs⟩ := ih e.length (by simp at hlen; omega) (Nat.le_refl _) h hs
      exact ⟨p.1 :: cs, by rw [utf8_cons, henc]; rfl, .short hp hcs⟩
    | @unicode codepoint a b c d s e hu hsur h =>
      obtain ⟨ch, rfl⟩ := exists_char (Nat.lt_trans (unicodeEscape_lt hu) (by decide)) hsur
      rw [appendUtf8_char, List.nil_append] at hvalid ⊢
      rw [validUtf8_encode_append] at hvalid
      obtain ⟨cs, rfl, hcs⟩ := ih e.length (by simp at hlen; omega) (Nat.le_refl _) h hvalid
      exact ⟨ch :: cs, rfl, .unicode (unicodeEscape_iff.mp hu) hcs⟩
    | @pair high low a b c d w x y z s e hu hhigh hl hlow h =>
      obtain ⟨ch, hch⟩ := @exists_char (0x10000 + (high - 0xd800) * 1024 + (low - 0xdc00))
        (by omega) (by omega)
      rw [← hch, appendUtf8_char, List.nil_append] at hvalid ⊢
      rw [validUtf8_encode_append] at hvalid
      obtain ⟨cs, rfl, hcs⟩ := ih e.length (by simp at hlen; omega) (Nat.le_refl _) h hvalid
      exact ⟨ch :: cs, rfl, .pair (unicodeEscape_iff.mp hu) (unicodeEscape_iff.mp hl)
        ⟨hhigh, hlow, hch⟩ hcs⟩

theorem denotes_iff : Denotes s e ↔ Spells s e ∧ validUtf8 s = true := by
  constructor
  · rintro ⟨cs, rfl, h⟩
    exact ⟨spells_of_stringText h, validUtf8_utf8 cs⟩
  · rintro ⟨h, hvalid⟩
    exact stringText_of_spells e.length (Nat.le_refl _) h hvalid

end Usk.Json
