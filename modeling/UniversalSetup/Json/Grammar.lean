import UniversalSetup.Base.Unicode
import UniversalSetup.Json.Encoding

/-!
# The grammar of the texts

The productions `value`, `element`, `elements`, `member` and `members` of JSON, without negative
and floating point numbers, over the bytes of a text. White space stands around elements and keys
only.

The productions leave open what the inside of a string literal denotes. `StringText` is the
standard reading, by Unicode scalar values. `Spells` is what the string loop of the reader accepts
before it looks at the encoding of the result: plain bytes need not form UTF-8 there. The writers
may produce such texts, so the reader is run over the grammar with `Spells`.

* `reads_value` — over a text of the grammar the reader returns the value it denotes exactly when
  the value is within the limits
-/

namespace Usk.Json

variable {c : UInt8} {w t : Bytes} {v : Value} {vs : List Value} {ms : List (Bytes × Value)}

/-! ## White space -/

/-- Spaces, tabs, carriage returns and line feeds. -/
def Blank (w : Bytes) : Prop :=
  ∀ c ∈ w, c = 0x20 ∨ c = 0x09 ∨ c = 0x0d ∨ c = 0x0a

theorem blank_nil : Blank [] := by
  intro c hc
  simp at hc

theorem isSpace_iff : isSpace c = true ↔ c = 0x20 ∨ c = 0x09 ∨ c = 0x0d ∨ c = 0x0a := by
  simp [isSpace, or_assoc]

theorem blank_cons : Blank (c :: w) ↔ isSpace c = true ∧ Blank w := by
  rw [isSpace_iff]
  exact List.forall_mem_cons

theorem skipSpace_blank (h : Blank w) (s : Bytes) : skipSpace (w ++ s) = skipSpace s := by
  induction w with
  | nil => rfl
  | cons c w ih =>
    obtain ⟨hc, hw⟩ := blank_cons.mp h
    rw [List.cons_append, skipSpace, if_pos hc, ih hw]

/-- What `skip_space` passes over is white space. -/
theorem exists_blank (s : Bytes) : ∃ w, Blank w ∧ s = w ++ skipSpace s := by
  induction s with
  | nil => exact ⟨[], blank_nil, rfl⟩
  | cons c s ih =>
    rw [skipSpace]
    split
    · next hc =>
      obtain ⟨w, hw, hs⟩ := ih
      exact ⟨c :: w, blank_cons.mpr ⟨hc, hw⟩, by rw [List.cons_append, ← hs]⟩
    · exact ⟨[], blank_nil, rfl⟩

/-! ## The productions -/

section Productions

variable (S : Bytes → Bytes → Prop)

mutual

/-- `ValueText S v t`: the text `t` denotes `v`. A string literal with inside `e` denotes the bytes
`s` when `S s e`. -/
inductive ValueText : Value → Bytes → Prop
  | null : ValueText .null (ascii "null")
  | true : ValueText (.boolean true) (ascii "true")
  | false : ValueText (.boolean false) (ascii "false")
  | unsigned (n : UInt64) : ValueText (.unsigned n) (decimal n.toNat)
  | string {s e : Bytes} : S s e → ValueText (.string s) (0x22 :: (e ++ [0x22]))
  | emptyArray {w : Bytes} : Blank w → ValueText (.array []) (0x5b :: (w ++ [0x5d]))
  | array {vs : List Value} {t : Bytes} : ElementsText vs t →
      ValueText (.array vs) (0x5b :: (t ++ [0x5d]))
  | emptyObject {w : Bytes} : Blank w → ValueText (.object []) (0x7b :: (w ++ [0x7d]))
  | object {ms : List (Bytes × Value)} {t : Bytes} : MembersText ms t →
      (ByteMap.keys ms).Nodup → ValueText (.object (ByteMap.ofList ms)) (0x7b :: (t ++ [0x7d]))

/-- A value with white space around it. -/
inductive ElementText : Value → Bytes → Prop
  | element {w w' t : Bytes} {v : Value} : Blank w → ValueText v t → Blank w' →
      ElementText v (w ++ (t ++ w'))

/-- The elements of an array that has some. -/
inductive ElementsText : List Value → Bytes → Prop
  | last {v : Value} {t : Bytes} : ElementText v t → ElementsText [v] t
  | more {v : Value} {vs : List Value} {t u : Bytes} : ElementText v t → ElementsText vs u →
      ElementsText (v :: vs) (t ++ 0x2c :: u)

/-- A key and its value. -/
inductive MemberText : Bytes × Value → Bytes → Prop
  | member {w w' k e t : Bytes} {v : Value} : Blank w → S k e → Blank w' → ElementText v t →
      MemberText (k, v) (w ++ 0x22 :: (e ++ 0x22 :: (w' ++ 0x3a :: t)))

/-- The members of an object that has some, in the order in which the text has them. -/
inductive MembersText : List (Bytes × Value) → Bytes → Prop
  | last {m : Bytes × Value} {t : Bytes} : MemberText m t → MembersText [m] t
  | more {m : Bytes × Value} {ms : List (Bytes × Value)} {t u : Bytes} : MemberText m t →
      MembersText ms u → MembersText (m :: ms) (t ++ 0x2c :: u)

end

end Productions

/-! ## String literals -/

/-- The one-letter escapes, each with the character it stands for. -/
def escapes : List (Char × UInt8) :=
  [('"', 0x22), ('\\', 0x5c), ('/', 0x2f), ('\x08', 0x62), ('\x0c', 0x66), ('\n', 0x6e),
    ('\r', 0x72), ('\t', 0x74)]

/-- `x` is a hexadecimal digit of value `n`. -/
def HexDigit (n : Nat) (x : UInt8) : Prop :=
  (ascii "0123456789abcdef")[n]? = some x ∨ (ascii "0123456789ABCDEF")[n]? = some x

/-- Four hexadecimal digits that stand for `n`. -/
inductive HexQuad : Nat → Bytes → Prop
  | quad {a b c d : Nat} {w x y z : UInt8} : HexDigit a w → HexDigit b x → HexDigit c y →
      HexDigit d z → HexQuad (((a * 16 + b) * 16 + c) * 16 + d) [w, x, y, z]

/-- The surrogates `high` and `low` stand for the scalar value `c`. -/
structure SurrogatePair (high low : Nat) (c : Char) : Prop where
  high_mem : 0xd800 ≤ high ∧ high ≤ 0xdbff
  low_mem : 0xdc00 ≤ low ∧ low ≤ 0xdfff
  scalar : c.toNat = 0x10000 + (high - 0xd800) * 0x400 + (low - 0xdc00)

/-- `StringText cs e`: a string literal with inside `e` denotes the characters `cs`. -/
inductive StringText : List Char → Bytes → Prop
  | nil : StringText [] []
  | plain {c : Char} {cs : List Char} {e : Bytes} : ' ' ≤ c → c ≠ '"' → c ≠ '\\' →
      StringText cs e → StringText (c :: cs) (String.utf8EncodeChar c ++ e)
  | short {c : Char} {x : UInt8} {cs : List Char} {e : Bytes} : (c, x) ∈ escapes →
      StringText cs e → StringText (c :: cs) (0x5c :: x :: e)
  | unicode {c : Char} {q e : Bytes} {cs : List Char} : HexQuad c.toNat q → StringText cs e →
      StringText (c :: cs) (0x5c :: 0x75 :: (q ++ e))
  | pair {c : Char} {high low : Nat} {q q' e : Bytes} {cs : List Char} : HexQuad high q →
      HexQuad low q' → SurrogatePair high low c → StringText cs e →
      StringText (c :: cs) (0x5c :: 0x75 :: (q ++ 0x5c :: 0x75 :: (q' ++ e)))

/-- The bytes that a string literal denotes. -/
def Denotes (s e : Bytes) : Prop :=
  ∃ cs, s = utf8 cs ∧ StringText cs e

def Surrogate (codepoint : Nat) : Prop :=
  0xd800 ≤ codepoint ∧ codepoint ≤ 0xdfff

/-- `Spells s e`: the string loop decodes `e` to `s`. -/
inductive Spells : Bytes → Bytes → Prop
  | nil : Spells [] []
  | plain {c : UInt8} {s e : Bytes} : ¬c < 0x20 → c ≠ 0x22 → c ≠ 0x5c → Spells s e →
      Spells (c :: s) (c :: e)
  | short {c x : UInt8} {s e : Bytes} : simpleEscape x = some c → Spells s e →
      Spells (c :: s) (0x5c :: x :: e)
  | unicode {codepoint : Nat} {a b c d : UInt8} {s e : Bytes} :
      unicodeEscape a b c d = .ok codepoint → ¬Surrogate codepoint → Spells s e →
      Spells (appendUtf8 [] codepoint ++ s) (0x5c :: 0x75 :: a :: b :: c :: d :: e)
  | pair {high low : Nat} {a b c d w x y z : UInt8} {s e : Bytes} :
      unicodeEscape a b c d = .ok high → 0xd800 ≤ high ∧ high ≤ 0xdbff →
      unicodeEscape w x y z = .ok low → 0xdc00 ≤ low ∧ low ≤ 0xdfff → Spells s e →
      Spells (appendUtf8 [] (0x10000 + (high - 0xd800) * 1024 + (low - 0xdc00)) ++ s)
        (0x5c :: 0x75 :: a :: b :: c :: d :: 0x5c :: 0x75 :: w :: x :: y :: z :: e)

theorem appendUtf8_eq (output : Bytes) (codepoint : Nat) :
    appendUtf8 output codepoint = output ++ appendUtf8 [] codepoint := by
  unfold appendUtf8
  split
  · rfl
  · split
    · rfl
    · split <;> rfl

theorem simpleEscape_ne_u {x : UInt8} (h : simpleEscape x = some c) : x ≠ 0x75 := by
  rintro rfl
  have hnone : simpleEscape 0x75 = none := by decide
  rw [hnone] at h
  cases h

/-- The string loop reads up to the closing quotation mark. -/
theorem Reader.stringLoop_spells (r : Reader) {s e : Bytes} (h : Spells s e) :
    ∀ (result tail : Bytes), r.stringLoop result (e ++ 0x22 :: tail)
      = (do let result ← r.finishString (result ++ s); return (result, tail)) := by
  have hq : ¬(0x5c : UInt8) = 0x22 := by decide
  have hc : ¬(0x5c : UInt8) < 0x20 := by decide
  induction h with
  | nil =>
    intro result tail
    rw [List.nil_append, Reader.stringLoop.eq_def]
    simp
  | plain h1 h2 h3 _ ih =>
    intro result tail
    rw [List.cons_append, Reader.stringLoop.eq_def]
    simp only [if_neg h2, if_neg h1, if_pos h3, ih]
    simp
  | short h _ ih =>
    intro result tail
    rw [List.cons_append, List.cons_append, Reader.stringLoop.eq_def]
    simp only [hq, hc, ne_eq, not_true_eq_false, reduceIte, if_neg (simpleEscape_ne_u h), h, ih]
    simp
  | @unicode codepoint a b c d s e hu hs _ ih =>
    intro result tail
    have h1 : ¬(decide (0xd800 ≤ codepoint) && decide (codepoint ≤ 0xdbff)) = true := by
      simp only [Bool.and_eq_true, decide_eq_true_eq]
      exact fun h => hs ⟨h.1, by omega⟩
    have h2 : ¬(decide (0xdc00 ≤ codepoint) && decide (codepoint ≤ 0xdfff)) = true := by
      simp only [Bool.and_eq_true, decide_eq_true_eq]
      exact fun h => hs ⟨by omega, h.2⟩
    simp only [List.cons_append]
    rw [Reader.stringLoop.eq_def]
    simp only [hq, hc, ne_eq, not_true_eq_false, reduceIte, hu]
    rw [if_neg h1, if_neg h2, ih, appendUtf8_eq result, List.append_assoc]
  | @pair high low a b c d w x y z s e hh hhigh hl hlow _ ih =>
    intro result tail
    have h1 : (decide (0xd800 ≤ high) && decide (high ≤ 0xdbff)) = true := by simpa using hhigh
    have h2 : ¬(decide (low < 0xdc00) || decide (0xdfff < low)) = true := by simp; omega
    simp only [List.cons_append]
    rw [Reader.stringLoop.eq_def]
    simp only [hq, hc, ne_eq, not_true_eq_false, reduceIte, hh]
    rw [if_pos h1]
    simp only [decide_false, Bool.or_self, Bool.false_eq_true, reduceIte, hl]
    rw [if_neg h2, ih, appendUtf8_eq result, List.append_assoc]

theorem Reader.stringLoop_verdict (r : Reader) {s e : Bytes} (h : Spells s e) (tail : Bytes) :
    Verdict (r.stringLoop [] (e ++ 0x22 :: tail)) (r.Admits s) (s, tail) := by
  rw [r.stringLoop_spells h [] tail]
  exact ((r.finishString_verdict s).bind (Verdict.ok (s, tail))).congr (by simp)

/-! ## The first byte -/

/-- A byte that starts a value. It is no white space and closes nothing. -/
def Starts (c : UInt8) : Prop :=
  isSpace c = false ∧ c ≠ 0x5d ∧ c ≠ 0x7d

theorem starts_of_isDigit (h : isDigit c = true) : Starts c := by
  simp only [isDigit, Bool.and_eq_true, decide_eq_true_eq, UInt8.le_iff_toNat_le] at h
  have h30 : (0x30 : UInt8).toNat = 0x30 := rfl
  have h39 : (0x39 : UInt8).toNat = 0x39 := rfl
  refine ⟨?_, ?_, ?_⟩
  · simp only [isSpace, Bool.or_eq_false_iff, beq_eq_false_iff_ne]
    refine ⟨⟨⟨?_, ?_⟩, ?_⟩, ?_⟩ <;> (rintro rfl; revert h; decide)
  all_goals (rintro rfl; revert h; decide)

theorem valueText_start {S : Bytes → Bytes → Prop} (h : ValueText S v t) :
    ∃ c rest, t = c :: rest ∧ Starts c := by
  cases h with
  | unsigned n =>
    obtain ⟨c, rest, hc⟩ := List.exists_cons_of_ne_nil (decimal_ne_nil n.toNat)
    exact ⟨c, rest, hc, starts_of_isDigit (isDigit_of_mem_decimal (hc ▸ List.mem_cons_self))⟩
  | null => exact ⟨_, _, rfl, by unfold Starts; decide⟩
  | true => exact ⟨_, _, rfl, by unfold Starts; decide⟩
  | false => exact ⟨_, _, rfl, by unfold Starts; decide⟩
  | string _ => exact ⟨_, _, rfl, by unfold Starts; decide⟩
  | emptyArray _ => exact ⟨_, _, rfl, by unfold Starts; decide⟩
  | array _ => exact ⟨_, _, rfl, by unfold Starts; decide⟩
  | emptyObject _ => exact ⟨_, _, rfl, by unfold Starts; decide⟩
  | object _ _ => exact ⟨_, _, rfl, by unfold Starts; decide⟩

theorem skipSpace_of_not (rest : Bytes) (h : isSpace c = false) :
    skipSpace (c :: rest) = c :: rest := by
  rw [skipSpace, if_neg (by simp [h])]

theorem consume_of_ne {d : UInt8} (rest : Bytes) (h : c ≠ d) : consume d (c :: rest) = none := by
  rw [consume, if_neg h]

theorem consume_self (c : UInt8) (rest : Bytes) : consume c (c :: rest) = some rest := by
  rw [consume, if_pos rfl]

theorem require_blank (hw : Blank w) (rest : Bytes) (h : isSpace c = false) :
    require c (w ++ c :: rest) = .ok rest := by
  rw [require, skipSpace_blank hw, skipSpace_of_not rest h, consume_self]

/-! ## The reader over a text -/

/-- What the reader does with the text of a value, whatever follows it. -/
def Reads (r : Reader) (v : Value) (t : Bytes) : Prop :=
  ∀ (budget n : Nat) (tail : Bytes), Delimited tail →
    Verdict (r.value budget ⟨t ++ tail, n⟩) (r.Fits budget n v) (v, ⟨tail, n + count v⟩)

/-- The same with white space around the value: what stands behind it stays unread. -/
def ReadsElement (r : Reader) (v : Value) (t : Bytes) : Prop :=
  ∃ w, Blank w ∧ ∀ (budget n : Nat) (tail : Bytes), Delimited tail →
    Verdict (r.value budget ⟨t ++ tail, n⟩) (r.Fits budget n v) (v, ⟨w ++ tail, n + count v⟩)

/-- The element loop over the elements of an array. -/
def ReadsElements (r : Reader) (vs : List Value) (t : Bytes) : Prop :=
  ∀ (budget n fuel : Nat) (tail : Bytes) (acc : List Value), vs.length ≤ fuel →
    Verdict (arrayLoop (r.value budget) fuel ⟨t ++ 0x5d :: tail, n⟩ acc)
      (depthItems vs ≤ budget ∧ n + countItems vs ≤ r.limits.maxValues ∧
        AllStringsItems r.Admits vs)
      (.array (acc ++ vs), ⟨tail, n + countItems vs⟩)

/-- The member loop over the members of an object. -/
def ReadsMembers (r : Reader) (ms : List (Bytes × Value)) (t : Bytes) : Prop :=
  ∀ (budget n fuel : Nat) (tail : Bytes) (acc : Object), ms.length ≤ fuel →
    (ByteMap.keys ms).Nodup → (∀ m ∈ ms, ByteMap.find acc m.1 = none) →
    Verdict (objectLoop r (r.value budget) fuel ⟨t ++ 0x7d :: tail, n⟩ acc)
      (depthMembers ms ≤ budget ∧ n + countMembers ms ≤ r.limits.maxValues ∧
        AllStringsMembers r.Admits ms)
      (.object (ms.foldl (fun o m => ByteMap.insert o m.1 m.2) acc), ⟨tail, n + countMembers ms⟩)

/-- The part of `value` before it looks at the first byte. -/
theorem value_guard (r : Reader) {v : Value} {budget n : Nat} {s : Input} {x : Value × Input}
    (hn : s.values = n)
    (h : ∀ b, budget = b + 1 → n + 1 ≤ r.limits.maxValues →
      Verdict (r.value (b + 1) s) (r.Fits (b + 1) n v) x) :
    Verdict (r.value budget s) (r.Fits budget n v) x := by
  cases budget with
  | zero => exact ⟨fun hf => absurd hf.1 (by omega), fun _ => ⟨_, rfl⟩⟩
  | succ b =>
    by_cases hv : n + 1 ≤ r.limits.maxValues
    · exact h b rfl hv
    · have hcount : 1 ≤ count v := by
        cases v <;> simp [count]
      refine ⟨fun hf => ?_, fun _ => ?_⟩
      · have := hf.2.1
        omega
      · rw [Reader.value, if_pos (by omega)]
        exact ⟨_, rfl⟩

theorem reads_literal (r : Reader) {v : Value} {t : Bytes} (hd : depth v = 0) (hc : count v = 1)
    (hs : AllStrings r.Admits v)
    (h : ∀ (b n : Nat) (tail : Bytes), n + 1 ≤ r.limits.maxValues →
      r.value (b + 1) ⟨t ++ tail, n⟩ = .ok (v, ⟨tail, n + 1⟩)) : Reads r v t := by
  intro budget n tail _
  refine value_guard r rfl fun b hb hn => ?_
  subst hb
  refine ⟨fun _ => ?_, fun hf => ?_⟩
  · rw [h b n tail hn, hc]
  · exact absurd ⟨by omega, by omega, hs⟩ hf

theorem literal_append (word : String) (tail : Bytes) :
    literal word (ascii word ++ tail) = .ok tail := by
  rw [literal, if_pos (by simp)]
  simp

/-- A word such as `null` at the front of the input. -/
theorem value_word (r : Reader) {word : String} {v : Value} {c : UInt8} {t : Bytes}
    (hw : ascii word = c :: t)
    (h : ∀ (b : Nat) (rest : Bytes) (n : Nat), n + 1 ≤ r.limits.maxValues →
      r.value (b + 1) ⟨c :: rest, n⟩
        = (do let rest ← literal word (c :: rest); return (v, ⟨rest, n + 1⟩)))
    (hd : depth v = 0) (hcount : count v = 1) (hs : AllStrings r.Admits v) :
    Reads r v (ascii word) := by
  refine reads_literal r hd hcount hs fun b n tail hn => ?_
  have happ := literal_append word tail
  rw [hw, List.cons_append] at happ ⊢
  rw [h b (t ++ tail) n hn, happ]
  rfl

theorem reads_null (r : Reader) : Reads r .null (ascii "null") := by
  refine value_word r rfl (fun b rest n hn => ?_) rfl rfl trivial
  rw [Reader.value, if_neg (by simpa using hn), skipSpace_of_not rest (by decide)]
  rfl

theorem reads_true (r : Reader) : Reads r (.boolean true) (ascii "true") := by
  refine value_word r rfl (fun b rest n hn => ?_) rfl rfl trivial
  rw [Reader.value, if_neg (by simpa using hn), skipSpace_of_not rest (by decide)]
  rfl

theorem reads_false (r : Reader) : Reads r (.boolean false) (ascii "false") := by
  refine value_word r rfl (fun b rest n hn => ?_) rfl rfl trivial
  rw [Reader.value, if_neg (by simpa using hn), skipSpace_of_not rest (by decide)]
  rfl

theorem reads_unsigned (r : Reader) (m : UInt64) :
    Reads r (.unsigned m) (decimal m.toNat) := by
  intro budget n tail htail
  refine value_guard r rfl fun b hb hn => ?_
  subst hb
  obtain ⟨c, rest, hc⟩ := List.exists_cons_of_ne_nil (decimal_ne_nil m.toNat)
  have hdigit : isDigit c = true := isDigit_of_mem_decimal (hc ▸ List.mem_cons_self)
  have hnum : number (c :: (rest ++ tail)) = .ok (m.toNat, tail) := by
    rw [← List.cons_append, ← hc]
    refine number_decimal ?_ htail
    have := m.toNat_lt
    unfold maxUInt64
    omega
  have hne : ∀ d : UInt8, isDigit d = false → c ≠ d := by
    rintro d hd rfl
    rw [hdigit] at hd
    cases hd
  refine ⟨fun _ => ?_, fun hf => absurd ⟨by simp [depth], by simpa [count] using hn, trivial⟩ hf⟩
  rw [hc, List.cons_append, Reader.value, if_neg (by simpa using hn),
    skipSpace_of_not _ (starts_of_isDigit hdigit).1]
  simp only [if_neg (hne 0x6e (by decide)), if_neg (hne 0x74 (by decide)),
    if_neg (hne 0x66 (by decide)), if_neg (hne 0x22 (by decide)), if_neg (hne 0x5b (by decide)),
    if_neg (hne 0x7b (by decide))]
  rw [if_pos (by simpa [isDigit] using hdigit), hnum]
  simp [bind, Except.bind, pure, Except.pure, count]

theorem reads_string (r : Reader) {s e : Bytes} (h : Spells s e) :
    Reads r (.string s) (0x22 :: (e ++ [0x22])) := by
  intro budget n tail _
  refine value_guard r rfl fun b hb hn => ?_
  subst hb
  have hloop := (r.stringLoop_verdict h tail).bind
    (f := fun x => .ok (Value.string x.1, Input.mk x.2 (n + 1))) (Verdict.ok _)
  have heq : r.value (b + 1) ⟨0x22 :: (e ++ [0x22]) ++ tail, n⟩
      = (r.stringLoop [] (e ++ 0x22 :: tail) >>= fun x =>
          .ok (Value.string x.1, ⟨x.2, n + 1⟩)) := by
    rw [List.cons_append, List.append_assoc, Reader.value, if_neg (by simpa using hn),
      skipSpace_of_not _ (by decide)]
    rfl
  rw [heq]
  refine hloop.congr ?_
  simp only [and_true, Reader.Fits, depth, count, AllStrings]
  exact ⟨fun ha => ⟨by omega, hn, ha⟩, fun ha => ha.2.2⟩

/-! ## Elements -/

theorem value_blank (r : Reader) (hw : Blank w) (budget : Nat) (s : Bytes) (n : Nat) :
    r.value budget ⟨w ++ s, n⟩ = r.value budget ⟨s, n⟩ := by
  cases budget with
  | zero => rfl
  | succ b => rw [Reader.value, Reader.value, skipSpace_blank hw]

theorem delimited_blank {tail : Bytes} (hw : Blank w) (ht : Delimited tail) :
    Delimited (w ++ tail) := by
  cases w with
  | nil => exact ht
  | cons c w => exact delimited_cons _ (Or.inl (blank_cons.mp hw).1)

theorem readsElement_of_reads (r : Reader) {w' : Bytes} (hw : Blank w) (hw' : Blank w')
    (h : Reads r v t) : ReadsElement r v (w ++ (t ++ w')) := by
  refine ⟨w', hw', fun budget n tail ht => ?_⟩
  rw [List.append_assoc, List.append_assoc, value_blank r hw]
  exact h budget n (w' ++ tail) (delimited_blank hw' ht)

/-- One round of the element loop. -/
theorem arrayLoop_round {value : Input → Result (Value × Input)} {s s' : Input} {v : Value}
    {P Q : Prop} {x : Value × Input} {fuel : Nat} {acc : List Value}
    (hv : Verdict (value s) P (v, s'))
    (hrest : Verdict (match consume 0x5d (skipSpace s'.rest) with
      | some rest => (.ok (.array (acc ++ [v]), { s' with rest }) : Result (Value × Input))
      | none => require 0x2c s'.rest >>= fun rest =>
          arrayLoop value fuel { s' with rest } (acc ++ [v])) Q x) :
    Verdict (arrayLoop value (fuel + 1) s acc) (P ∧ Q) x := by
  rw [arrayLoop]
  exact hv.bind (f := fun p => _) hrest


theorem readsElements_last (r : Reader) (hv : ReadsElement r v t) : ReadsElements r [v] t := by
  intro budget n fuel tail acc hfuel
  obtain ⟨w, hw, hv⟩ := hv
  obtain ⟨fuel, rfl⟩ : ∃ f, fuel = f + 1 := ⟨fuel - 1, by simp at hfuel; omega⟩
  refine (arrayLoop_round (hv budget n (0x5d :: tail) (delimited_cons _ (by decide)))
    (Q := True) ?_).congr ?_
  · rw [skipSpace_blank hw, skipSpace_of_not tail (by decide), consume_self]
    simp only [countItems, Nat.add_zero]
    exact Verdict.ok _
  · simp only [Reader.Fits, depthItems, countItems, AllStringsItems, and_true, Nat.add_zero]
    constructor <;> rintro ⟨h1, h2, h3⟩ <;> exact ⟨by omega, h2, h3⟩

theorem readsElements_more (r : Reader) {u : Bytes} (hv : ReadsElement r v t)
    (hvs : ReadsElements r vs u) : ReadsElements r (v :: vs) (t ++ 0x2c :: u) := by
  intro budget n fuel tail acc hfuel
  obtain ⟨w, hw, hv⟩ := hv
  obtain ⟨fuel, rfl⟩ : ∃ f, fuel = f + 1 := ⟨fuel - 1, by simp at hfuel; omega⟩
  have hlen : vs.length ≤ fuel := by simpa using hfuel
  rw [List.append_assoc, List.cons_append, depthItems, countItems, AllStringsItems,
    ← Nat.add_assoc]
  refine (arrayLoop_round (hv budget n (0x2c :: (u ++ 0x5d :: tail)) (delimited_cons _ (by decide)))
    (Q := depthItems vs ≤ budget ∧ n + count v + countItems vs ≤ r.limits.maxValues ∧
      AllStringsItems r.Admits vs) ?_).congr ?_
  · rw [skipSpace_blank hw, skipSpace_of_not _ (by decide), consume_of_ne _ (by decide)]
    simp only [require_blank hw _ (show isSpace 0x2c = false by decide)]
    have hrec := hvs budget (n + count v) fuel tail (acc ++ [v]) hlen
    rw [List.append_assoc, List.singleton_append] at hrec
    exact hrec
  · unfold Reader.Fits
    constructor
    · rintro ⟨⟨a1, a2, a3⟩, b1, b2, b3⟩
      exact ⟨by omega, by omega, a3, b3⟩
    · rintro ⟨a1, a2, a3, b3⟩
      exact ⟨⟨by omega, by omega, a3⟩, by omega, by omega, b3⟩

/-- A text with white space in front of `c`. -/
def Opens (c : UInt8) (t : Bytes) : Prop :=
  ∃ w rest, Blank w ∧ t = w ++ c :: rest

theorem Opens.skipSpace (h : Opens c t) (hc : isSpace c = false) (tail : Bytes) :
    ∃ rest, skipSpace (t ++ tail) = c :: rest := by
  obtain ⟨w, rest, hw, rfl⟩ := h
  exact ⟨rest ++ tail, by rw [List.append_assoc, skipSpace_blank hw, List.cons_append,
    skipSpace_of_not _ hc]⟩

theorem Opens.append (h : Opens c t) (u : Bytes) : Opens c (t ++ u) := by
  obtain ⟨w, rest, hw, rfl⟩ := h
  exact ⟨w, rest ++ u, hw, by rw [List.append_assoc, List.cons_append]⟩

theorem elementText_opens {S : Bytes → Bytes → Prop} (h : ElementText S v t) :
    ∃ c, Starts c ∧ Opens c t := by
  cases h with
  | @element w w' t v hw hv hw' =>
    obtain ⟨c, rest, rfl, hc⟩ := valueText_start hv
    exact ⟨c, hc, w, rest ++ w', hw, rfl⟩

theorem elementsText_opens {S : Bytes → Bytes → Prop} (h : ElementsText S vs t) :
    ∃ c, Starts c ∧ Opens c t := by
  cases h with
  | last hv => exact elementText_opens hv
  | more hv _ =>
    obtain ⟨c, hc, ho⟩ := elementText_opens hv
    exact ⟨c, hc, ho.append _⟩

theorem elementsText_length {S : Bytes → Bytes → Prop} (h : ElementsText S vs t) :
    vs.length ≤ t.length := by
  induction vs generalizing t with
  | nil => simp
  | cons v vs ih =>
    cases h with
    | last hv =>
      obtain ⟨c, -, w, rest, -, rfl⟩ := elementText_opens hv
      simp only [List.length_append, List.length_cons, List.length_nil]
      omega
    | more hv hvs =>
      have := ih hvs
      simp only [List.length_cons, List.length_append] at this ⊢
      omega

/-- The front of `value` at an opening bracket or brace. -/
theorem value_open (r : Reader) {b n : Nat} {s : Bytes} (hn : n + 1 ≤ r.limits.maxValues) :
    r.value (b + 1) ⟨0x5b :: s, n⟩ = array (r.value b) ⟨s, n + 1⟩ ∧
      r.value (b + 1) ⟨0x7b :: s, n⟩ = object r (r.value b) ⟨s, n + 1⟩ := by
  constructor
  all_goals
    rw [Reader.value, if_neg (by simpa using hn), skipSpace_of_not _ (by decide)]
    rfl

theorem reads_emptyArray (r : Reader) (hw : Blank w) :
    Reads r (.array []) (0x5b :: (w ++ [0x5d])) := by
  intro budget n tail _
  refine value_guard r rfl fun b hb hn => ?_
  subst hb
  rw [List.cons_append, List.append_assoc, (value_open r hn).1, array, List.singleton_append,
    skipSpace_blank hw, skipSpace_of_not tail (by decide), consume_self]
  refine (Verdict.ok _).congr ?_
  simp only [Reader.Fits, depth, depthItems, count, countItems, AllStrings, AllStringsItems]
  simpa using hn

theorem reads_array (r : Reader) {S : Bytes → Bytes → Prop} (ht : ElementsText S vs t)
    (h : ReadsElements r vs t) : Reads r (.array vs) (0x5b :: (t ++ [0x5d])) := by
  intro budget n tail _
  refine value_guard r rfl fun b hb hn => ?_
  subst hb
  obtain ⟨c, hc, ho⟩ := elementsText_opens ht
  obtain ⟨rest, hskip⟩ := ho.skipSpace hc.1 (0x5d :: tail)
  have hlen := elementsText_length ht
  rw [List.cons_append, List.append_assoc, List.singleton_append, (value_open r hn).1, array,
    hskip, consume_of_ne rest hc.2.1]
  have hloop := h b (n + 1) ((t ++ 0x5d :: tail).length + 1) tail []
    (by simp only [List.length_append]; omega)
  rw [List.nil_append] at hloop
  simp only [count]
  rw [← Nat.add_assoc]
  refine hloop.congr ?_
  simp only [Reader.Fits, depth, count, AllStrings]
  constructor <;> rintro ⟨h1, h2, h3⟩ <;> exact ⟨by omega, by omega, h3⟩

/-! ## Members -/

/-- The member loop after a member: it closes the object or goes on behind a comma. -/
def objectNext (r : Reader) (value : Input → Result (Value × Input)) (fuel : Nat) (s : Input)
    (result : Object) : Result (Value × Input) :=
  match consume 0x7d (skipSpace s.rest) with
  | some rest => .ok (.object result, { s with rest })
  | none => require 0x2c s.rest >>= fun rest => objectLoop r value fuel { s with rest } result

/-- One round of the member loop over the text of a member. -/
def ReadsMember (r : Reader) (m : Bytes × Value) (t : Bytes) : Prop :=
  ∃ w, Blank w ∧ ∀ (budget n fuel : Nat) (tail : Bytes) (acc : Object) (Q : Prop)
    (x : Value × Input), Delimited tail → ByteMap.find acc m.1 = none →
    Verdict (objectNext r (r.value budget) fuel ⟨w ++ tail, n + count m.2⟩
      (ByteMap.insert acc m.1 m.2)) Q x →
    Verdict (objectLoop r (r.value budget) (fuel + 1) ⟨t ++ tail, n⟩ acc)
      (r.Admits m.1 ∧ r.Fits budget n m.2 ∧ Q) x

theorem readsMember_of_reads (r : Reader) {w' k e : Bytes} (hw : Blank w) (hk : Spells k e)
    (hw' : Blank w') (hv : ReadsElement r v t) :
    ReadsMember r (k, v) (w ++ 0x22 :: (e ++ 0x22 :: (w' ++ 0x3a :: t))) := by
  obtain ⟨w'', hw'', hv⟩ := hv
  refine ⟨w'', hw'', fun budget n fuel tail acc Q x htail hnew hnext => ?_⟩
  have hemplace : ByteMap.emplace acc k v = some (ByteMap.insert acc k v) := by
    rw [ByteMap.emplace, if_neg (by simp [hnew])]
  simp only [List.append_assoc, List.cons_append]
  rw [objectLoop, skipSpace_blank hw, skipSpace_of_not _ (by decide), consume_self]
  refine (r.stringLoop_verdict hk (w' ++ 0x3a :: (t ++ tail))).bind ?_
  simp only [require_blank hw' _ (show isSpace 0x3a = false by decide)]
  refine (hv budget n tail htail).bind (f := fun p => _) ?_
  simp only [hemplace]
  exact hnext

theorem readsMembers_last (r : Reader) {m : Bytes × Value} (hm : ReadsMember r m t) :
    ReadsMembers r [m] t := by
  intro budget n fuel tail acc hfuel _ hnew
  obtain ⟨w, hw, hm⟩ := hm
  obtain ⟨fuel, rfl⟩ : ∃ f, fuel = f + 1 := ⟨fuel - 1, by simp at hfuel; omega⟩
  refine (hm budget n fuel (0x7d :: tail) acc True _ (delimited_cons _ (by decide))
    (hnew _ List.mem_cons_self) ?_).congr ?_
  · rw [objectNext, skipSpace_blank hw, skipSpace_of_not tail (by decide), consume_self]
    simp only [countMembers, Nat.add_zero]
    exact Verdict.ok _
  · simp only [Reader.Fits, depthMembers, countMembers, AllStringsMembers, and_true, Nat.add_zero]
    constructor
    · rintro ⟨h0, h1, h2, h3⟩
      exact ⟨by omega, h2, h0, h3⟩
    · rintro ⟨h1, h2, h0, h3⟩
      exact ⟨h0, by omega, h2, h3⟩

theorem readsMembers_more (r : Reader) {m : Bytes × Value} {u : Bytes} (hm : ReadsMember r m t)
    (hms : ReadsMembers r ms u) : ReadsMembers r (m :: ms) (t ++ 0x2c :: u) := by
  intro budget n fuel tail acc hfuel hnd hnew
  obtain ⟨w, hw, hm⟩ := hm
  obtain ⟨fuel, rfl⟩ : ∃ f, fuel = f + 1 := ⟨fuel - 1, by simp at hfuel; omega⟩
  have hlen : ms.length ≤ fuel := by simpa using hfuel
  obtain ⟨hnot, hnd⟩ := List.nodup_cons.mp hnd
  have hkey : ByteMap.find acc m.1 = none := hnew m List.mem_cons_self
  have hnew' : ∀ m' ∈ ms, ByteMap.find (ByteMap.insert acc m.1 m.2) m'.1 = none := by
    intro m' hm'
    rw [ByteMap.find_insert hkey, if_neg fun heq => hnot (List.mem_map.mpr ⟨m', hm', heq.symm⟩)]
    exact hnew m' (List.mem_cons_of_mem _ hm')
  rw [List.append_assoc, List.cons_append, depthMembers, countMembers, AllStringsMembers,
    ← Nat.add_assoc, List.foldl_cons]
  refine (hm budget n fuel (0x2c :: (u ++ 0x7d :: tail)) acc
    (depthMembers ms ≤ budget ∧ n + count m.2 + countMembers ms ≤ r.limits.maxValues ∧
      AllStringsMembers r.Admits ms) _ (delimited_cons _ (by decide)) hkey ?_).congr ?_
  · rw [objectNext, skipSpace_blank hw, skipSpace_of_not _ (by decide), consume_of_ne _ (by decide)]
    simp only [require_blank hw _ (show isSpace 0x2c = false by decide)]
    exact hms budget (n + count m.2) fuel tail (ByteMap.insert acc m.1 m.2) hlen hnd hnew'
  · unfold Reader.Fits
    constructor
    · rintro ⟨a0, ⟨a1, a2, a3⟩, b1, b2, b3⟩
      exact ⟨by omega, by omega, a0, a3, b3⟩
    · rintro ⟨a1, a2, a0, a3, b3⟩
      exact ⟨a0, ⟨by omega, by omega, a3⟩, by omega, by omega, b3⟩

theorem membersText_opens {S : Bytes → Bytes → Prop} (h : MembersText S ms t) : Opens 0x22 t := by
  cases h with
  | last hm =>
    cases hm with
    | member hw _ _ _ => exact ⟨_, _, hw, rfl⟩
  | more hm _ =>
    cases hm with
    | member hw _ _ _ => exact Opens.append ⟨_, _, hw, rfl⟩ _

theorem membersText_length {S : Bytes → Bytes → Prop} (h : MembersText S ms t) :
    ms.length ≤ t.length := by
  induction ms generalizing t with
  | nil => simp
  | cons m ms ih =>
    cases h with
    | last hm =>
      obtain ⟨w, rest, -, rfl⟩ := membersText_opens (MembersText.last hm)
      simp only [List.length_append, List.length_cons, List.length_nil]
      omega
    | more hm hms =>
      have := ih hms
      simp only [List.length_cons, List.length_append] at this ⊢
      omega

theorem reads_emptyObject (r : Reader) (hw : Blank w) :
    Reads r (.object []) (0x7b :: (w ++ [0x7d])) := by
  intro budget n tail _
  refine value_guard r rfl fun b hb hn => ?_
  subst hb
  rw [List.cons_append, List.append_assoc, (value_open r hn).2, object, List.singleton_append,
    skipSpace_blank hw, skipSpace_of_not tail (by decide), consume_self]
  refine (Verdict.ok _).congr ?_
  simp only [Reader.Fits, depth, depthMembers, count, countMembers, AllStrings, AllStringsMembers]
  simpa using hn

theorem reads_object (r : Reader) {S : Bytes → Bytes → Prop} (ht : MembersText S ms t)
    (hnd : (ByteMap.keys ms).Nodup) (h : ReadsMembers r ms t) :
    Reads r (.object (ByteMap.ofList ms)) (0x7b :: (t ++ [0x7d])) := by
  intro budget n tail _
  refine value_guard r rfl fun b hb hn => ?_
  subst hb
  have hperm := ByteMap.ofList_perm hnd
  obtain ⟨rest, hskip⟩ := (membersText_opens ht).skipSpace (by decide) (0x7d :: tail)
  have hlen := membersText_length ht
  rw [List.cons_append, List.append_assoc, List.singleton_append, (value_open r hn).2, object,
    hskip, consume_of_ne rest (by decide)]
  have hloop := h b (n + 1) ((t ++ 0x7d :: tail).length + 1) tail []
    (by simp only [List.length_append]; omega) hnd (fun _ _ => rfl)
  simp only [count, countMembers_perm hperm]
  rw [← Nat.add_assoc]
  refine hloop.congr ?_
  simp only [Reader.Fits, depth, count, AllStrings, countMembers_perm hperm,
    depthMembers_perm hperm, allStringsMembers_perm hperm]
  constructor <;> rintro ⟨h1, h2, h3⟩ <;> exact ⟨by omega, by omega, h3⟩

/-! ## Whole texts -/

mutual

/-- The reader over the text of a value, by recursion on its derivation. -/
theorem reads_value (r : Reader) {v : Value} {t : Bytes} : ValueText Spells v t → Reads r v t
  | .null => reads_null r
  | .true => reads_true r
  | .false => reads_false r
  | .unsigned n => reads_unsigned r n
  | .string h => reads_string r h
  | .emptyArray h => reads_emptyArray r h
  | .array h => reads_array r h (reads_elements r h)
  | .emptyObject h => reads_emptyObject r h
  | .object h hnd => reads_object r h hnd (reads_members r h)

theorem reads_element (r : Reader) {v : Value} {t : Bytes} :
    ElementText Spells v t → ReadsElement r v t
  | .element hw h hw' => readsElement_of_reads r hw hw' (reads_value r h)

theorem reads_elements (r : Reader) {vs : List Value} {t : Bytes} :
    ElementsText Spells vs t → ReadsElements r vs t
  | .last h => readsElements_last r (reads_element r h)
  | .more h hs => readsElements_more r (reads_element r h) (reads_elements r hs)

theorem reads_member (r : Reader) {m : Bytes × Value} {t : Bytes} :
    MemberText Spells m t → ReadsMember r m t
  | .member hw hk hw' h => readsMember_of_reads r hw hk hw' (reads_element r h)

theorem reads_members (r : Reader) {ms : List (Bytes × Value)} {t : Bytes} :
    MembersText Spells ms t → ReadsMembers r ms t
  | .last h => readsMembers_last r (reads_member r h)
  | .more h hs => readsMembers_more r (reads_member r h) (reads_members r hs)

end

/-- A whole text is read exactly when the value it denotes is within the limits. -/
theorem run_element (r : Reader) (h : ElementText Spells v t) :
    Verdict (r.run t)
      (t.length ≤ r.limits.maxBytes ∧ r.Fits (r.limits.maxDepth + 1) 0 v) v := by
  cases h with
  | @element w w' t v hw h hw' =>
    have hv := reads_value r h (r.limits.maxDepth + 1) 0 w' (by
      simpa using delimited_blank hw' delimited_nil)
    have hstart : skipSpace (w ++ (t ++ w')) = t ++ w' := by
      obtain ⟨c, rest, rfl, hc⟩ := valueText_start h
      rw [skipSpace_blank hw, List.cons_append, skipSpace_of_not _ hc.1]
    have hend : skipSpace w' = [] := by simpa [skipSpace] using skipSpace_blank hw' []
    by_cases hlen : (w ++ (t ++ w')).length ≤ r.limits.maxBytes
    · rw [Reader.run, if_neg (by omega), hstart]
      have hbind := hv.bind (Q := True) (b := v) (f := fun (p : Value × Input) =>
        if skipSpace p.2.rest ≠ [] then .error "JSON has trailing content" else .ok p.1)
        (by simpa [hend] using Verdict.ok v)
      exact hbind.congr ⟨fun hp => ⟨hlen, hp.1⟩, fun hp => ⟨hp.2, trivial⟩⟩
    · rw [Reader.run, if_pos (by omega)]
      exact ⟨fun hp => absurd hp.1 hlen, fun _ => ⟨_, rfl⟩⟩

end Usk.Json
