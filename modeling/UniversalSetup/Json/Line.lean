import UniversalSetup.Json.Accepted
import UniversalSetup.Json.Members

/-!
# Documents on one line

A durable record is the canonical text of a document and the end of a line. The readers parse a
record, encode the result again and compare the texts, so that a text that was cut off is never
taken for a record: canonical texts have no end of a line in them.
-/

namespace Usk.Json

variable {message : String} {v : Value} {s t : Bytes} {d : Nat}

/-- The two ends of a line. -/
def lineFeed : Bytes := [0x0a]

def carriageReturnLineFeed : Bytes := [0x0d, 0x0a]

/-- A document whose canonical text this is, with either end of the line. -/
def readLine (text : Bytes) (message : String) : Result Value := do
  let document ← parse text {}
  demand (canonical document ++ lineFeed == text ||
    canonical document ++ carriageReturnLineFeed == text) message
  pure document

theorem readLine_eq_ok {text : Bytes} :
    readLine text message = .ok v ↔ parse text {} = .ok v ∧
      (text = canonical v ++ lineFeed ∨ text = canonical v ++ carriageReturnLineFeed) := by
  simp only [readLine, bind_eq_ok, demand_eq_ok, Bool.or_eq_true, beq_iff_eq]
  constructor
  · rintro ⟨w, hparse, -, hends, h⟩
    cases h
    exact ⟨hparse, hends.imp Eq.symm Eq.symm⟩
  · rintro ⟨hparse, hends⟩
    exact ⟨v, hparse, (), hends.imp Eq.symm Eq.symm, rfl⟩

/-- A line that was written is read again exactly if it keeps to the limits of the parser. -/
theorem readLine_canonical_iff {v : Value} {message : String} (hw : WellFormed v) :
    readLine (canonical v ++ lineFeed) message = .ok v ↔
      (canonical v ++ lineFeed).length ≤ ParseLimits.maxBytes {} ∧ ParseLimits.Allow {} v := by
  rw [readLine_eq_ok]
  have hverdict := @parse_encodes_line {} v _ (encodes_canonical hw)
  constructor
  · rintro ⟨hparse, -⟩
    exact (hverdict.eq_of_ok hparse).1
  · intro hallow
    exact ⟨hverdict.1 hallow, .inl rfl⟩

/-- What is read out of a line that was written is what was written. -/
theorem eq_of_readLine_canonical {w : Value} (hw : WellFormed v)
    (h : readLine (canonical v ++ lineFeed) message = .ok w) : w = v :=
  ((@parse_encodes_line {} v _ (encodes_canonical hw)).eq_of_ok (readLine_eq_ok.mp h).1).2

/-- A string within the default limits of the parser. -/
def Legible (s : Bytes) : Prop :=
  s.length ≤ ParseLimits.maxStringBytes {} ∧ validUtf8 s = true

theorem legible_of_shortAscii {n : Nat} (h : ShortAscii n s)
    (hn : n ≤ ParseLimits.maxStringBytes {}) : Legible s :=
  ⟨h.1.trans hn, validUtf8_of_ascii h.2⟩

theorem legible_literal (s : String)
    (h : (decide ((ascii s).length ≤ 64) && (ascii s).all fun c => decide (c ≤ 0x7f)) = true) :
    Legible (ascii s) :=
  legible_of_shortAscii (shortAscii_literal s h) (by decide)

theorem legible_literals {names : List String} (h : names.all (fun s =>
    decide ((ascii s).length ≤ 64) && (ascii s).all fun c => decide (c ≤ 0x7f)) = true) :
    ∀ k ∈ names.map ascii, Legible k :=
  List.forall_mem_map.mpr fun s hs => legible_literal s (List.all_eq_true.mp h s hs)

theorem legible_identifier (h : validIdentifier s = true) : Legible s :=
  legible_of_shortAscii (shortAscii_identifier h) (by decide)

theorem legible_sha256 (h : validSha256 s = true) : Legible s :=
  legible_of_shortAscii (shortAscii_sha256 h) (by decide)

/-- A value with legible strings and with bounded nesting. -/
structure Writable (d : Nat) (v : Value) : Prop where
  wellFormed : WellFormed v
  nested : depth v ≤ d
  strings : AllStrings Legible v

theorem Writable.mono {d' : Nat} (h : Writable d v) (hd : d ≤ d') : Writable d' v :=
  ⟨h.wellFormed, h.nested.trans hd, h.strings⟩

theorem writable_string (h : Legible s) : Writable 0 (.string s) :=
  ⟨trivial, Nat.le_refl 0, h⟩

theorem writable_unsigned (n : UInt64) : Writable 0 (.unsigned n) :=
  ⟨trivial, Nat.le_refl 0, trivial⟩

theorem writable_array {vs : List Value} (h : ∀ v ∈ vs, Writable d v) :
    Writable (d + 1) (.array vs) where
  wellFormed := wellFormed_array.mpr fun v hv => (h v hv).wellFormed
  nested := depthItems_le fun v hv => (h v hv).nested
  strings := by
    rw [AllStrings, allStringsItems_iff]
    exact fun v hv => (h v hv).strings

theorem writable_ofList {ms : List (Bytes × Value)} (hnd : (ByteMap.keys ms).Nodup)
    (hkeys : ∀ k ∈ ByteMap.keys ms, Legible k) (h : ∀ m ∈ ms, Writable d m.2) :
    Writable (d + 1) (.object (ByteMap.ofList ms)) where
  wellFormed := wellFormed_ofList hnd fun m hm => (h m hm).wellFormed
  nested := by
    rw [depth_ofList hnd]
    exact depthMembers_le fun m hm => (h m hm).nested
  strings := allStrings_ofList hnd fun m hm =>
    ⟨hkeys m.1 (List.mem_map_of_mem hm), (h m hm).strings⟩

theorem Writable.allow (h : Writable d v) (hd : d ≤ ParseLimits.maxDepth {})
    (hcount : count v ≤ ParseLimits.maxValues {}) : ParseLimits.Allow {} v :=
  ⟨h.nested.trans hd, hcount, h.strings⟩

/-- Of the limits of the parser, the size and the number of values are left. -/
theorem readLine_writable_iff {d : Nat} {v : Value} {message : String} (h : Writable d v)
    (hd : d ≤ ParseLimits.maxDepth {}) : readLine (canonical v ++ lineFeed) message = .ok v ↔
      (canonical v ++ lineFeed).length ≤ ParseLimits.maxBytes {} ∧
        count v ≤ ParseLimits.maxValues {} := by
  rw [readLine_canonical_iff h.wellFormed]
  constructor
  · rintro ⟨hlength, -, hcount, -⟩
    exact ⟨hlength, hcount⟩
  · rintro ⟨hlength, hcount⟩
    exact ⟨hlength, h.allow hd hcount⟩

/-! ## Cut lines -/

/-- No control byte. -/
def Printable (t : Bytes) : Prop :=
  ∀ c ∈ t, 0x20 ≤ c

instance (t : Bytes) : Decidable (Printable t) :=
  decidable_of_iff (t.all (fun c => decide (0x20 ≤ c)) = true) (by simp [Printable])

theorem printable_append : Printable (s ++ t) ↔ Printable s ∧ Printable t :=
  List.forall_mem_append

theorem printable_cons {c : UInt8} : Printable (c :: t) ↔ 0x20 ≤ c ∧ Printable t :=
  List.forall_mem_cons

theorem printable_of_isHex (h : ∀ c ∈ t, isHex c = true) : Printable t := by
  intro c hc
  have hhex := h c hc
  simp only [isHex, isDigit, Bool.or_eq_true, Bool.and_eq_true, decide_eq_true_eq] at hhex
  rcases hhex with ⟨hle, -⟩ | ⟨hle, -⟩
  · exact UInt8.le_trans (by decide) hle
  · exact UInt8.le_trans (by decide) hle

theorem printable_escapeByte (c : UInt8) : Printable (escapeByte c) := by
  rcases escapeByte_cases c with ⟨x, hx, heq⟩ | ⟨hlt, heq⟩ | ⟨hge, -, -, heq⟩
  · have hshort : Printable (shortEscapes.map Prod.snd) := by decide
    rw [heq]
    exact printable_cons.mpr
      ⟨by decide, List.forall_mem_singleton.mpr (hshort x (List.mem_map_of_mem hx))⟩
  · rw [heq]
    have hlow : c.toNat < 0x20 := hlt
    have hhex : ∀ d ∈ [hexByte (c.toNat / 16), hexByte (c.toNat % 16)], isHex d = true := by
      simp only [List.forall_mem_cons]
      exact ⟨isHex_hexByte (by omega), isHex_hexByte (by omega), List.forall_mem_nil _⟩
    exact printable_append.mpr
      ⟨(by decide : Printable [0x5c, 0x75, 0x30, 0x30]), printable_of_isHex hhex⟩
  · rw [heq]
    exact List.forall_mem_singleton.mpr (UInt8.not_lt.mp hge)

theorem printable_escaped (s : Bytes) : Printable (escaped s) := by
  have hbody : Printable (s.flatMap escapeByte) := by
    intro c hc
    obtain ⟨b, -, hb⟩ := List.mem_flatMap.mp hc
    exact printable_escapeByte b c hb
  exact printable_cons.mpr ⟨by decide, printable_append.mpr ⟨hbody, by decide⟩⟩

theorem printable_canonicalItems : ∀ {vs : List Value}, (∀ v ∈ vs, Printable (canonical v)) →
    Printable (canonicalItems vs)
  | [], _ => List.forall_mem_nil _
  | v :: rest, h => by
    have ih := printable_canonicalItems fun w hw => h w (List.mem_cons_of_mem v hw)
    rw [canonicalItems]
    refine printable_append.mpr ⟨h v List.mem_cons_self, ?_⟩
    split
    · exact List.forall_mem_nil _
    · exact printable_cons.mpr ⟨by decide, ih⟩

theorem printable_canonicalMembers : ∀ {ms : List (Bytes × Value)},
    (∀ m ∈ ms, Printable (canonical m.2)) → Printable (canonicalMembers ms)
  | [], _ => List.forall_mem_nil _
  | (key, v) :: rest, h => by
    have ih := printable_canonicalMembers fun m hm => h m (List.mem_cons_of_mem (key, v) hm)
    rw [canonicalMembers]
    refine printable_append.mpr ⟨printable_escaped key, printable_cons.mpr ⟨by decide,
      printable_append.mpr ⟨h (key, v) List.mem_cons_self, ?_⟩⟩⟩
    split
    · exact List.forall_mem_nil _
    · exact printable_cons.mpr ⟨by decide, ih⟩

/-- Canonical texts have no control bytes: the encoder escapes them. -/
theorem printable_canonical (v : Value) : Printable (canonical v) := by
  induction v using Value.induction with
  | null => exact (by decide : Printable (ascii "null"))
  | boolean b =>
    cases b with
    | false => exact (by decide : Printable (ascii "false"))
    | true => exact (by decide : Printable (ascii "true"))
  | unsigned n =>
    refine printable_of_isHex fun c hc => ?_
    rw [isHex, isDigit_of_mem_decimal hc]
    rfl
  | string s => exact printable_escaped s
  | array items ih =>
    exact printable_cons.mpr ⟨by decide,
      printable_append.mpr ⟨printable_canonicalItems ih, by decide⟩⟩
  | object members ih =>
    exact printable_cons.mpr ⟨by decide,
      printable_append.mpr ⟨printable_canonicalMembers ih, by decide⟩⟩

/-- A line that was cut off is not read. -/
theorem readLine_take_ne {w : Value} {n : Nat} (hn : n < (canonical v ++ lineFeed).length) :
    readLine ((canonical v ++ lineFeed).take n) message ≠ .ok w := by
  intro h
  have hmem : (0x0a : UInt8) ∈ (canonical v ++ lineFeed).take n := by
    rcases (readLine_eq_ok.mp h).2 with heq | heq
    · rw [heq]
      exact List.mem_append_right _ (by decide)
    · rw [heq]
      exact List.mem_append_right _ (by decide)
  rw [List.length_append, lineFeed, List.length_singleton] at hn
  rw [List.take_append_of_le_length (by omega)] at hmem
  have hprintable := printable_canonical v _ (List.mem_of_mem_take hmem)
  revert hprintable
  decide

theorem lineFeed_ne_carriageReturn {v w : Value} :
    canonical v ++ lineFeed ≠ canonical w ++ carriageReturnLineFeed := by
  intro heq
  have hsplit : canonical v ++ [0x0a] = (canonical w ++ [0x0d]) ++ [0x0a] := by
    rw [List.append_assoc]
    exact heq
  have hcontrol := printable_canonical v 0x0d (by
    rw [List.append_cancel_right hsplit]
    exact List.mem_append_right _ List.mem_cons_self)
  revert hcontrol
  decide

/-- The end of the line is no part of the document. -/
theorem canonical_eq_of_line {v w : Value} {text : Bytes}
    (hv : text = canonical v ++ lineFeed ∨ text = canonical v ++ carriageReturnLineFeed)
    (hw : text = canonical w ++ lineFeed ∨ text = canonical w ++ carriageReturnLineFeed) :
    canonical v = canonical w := by
  rcases hv with rfl | rfl
  · rcases hw with heq | heq
    · exact List.append_cancel_right heq
    · exact absurd heq lineFeed_ne_carriageReturn
  · rcases hw with heq | heq
    · exact absurd heq.symm lineFeed_ne_carriageReturn
    · exact List.append_cancel_right heq

end Usk.Json
