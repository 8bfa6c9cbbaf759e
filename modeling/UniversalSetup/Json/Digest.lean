import UniversalSetup.Base.Blocks
import UniversalSetup.Base.Sha256
import UniversalSetup.Json.Roundtrip

/-!
# Digests of canonical texts

`append_canonical` is written once for two outputs: a string, and a digest behind a buffer of 4096
bytes. It puts a text out in many small pieces. What an output has been given after that is the
canonical text, whatever the output does with the pieces; so the digest is the digest of the text,
wherever the buffer was full. Two values have the same canonical text exactly if `equal_values` says
that they are equal.
-/

namespace Usk.Json

/-! ## The writer -/

section Writer

variable {ω : Type} (append : ω → Bytes → ω)

/-- The `switch` of `append_escaped`. -/
def appendEscape (out : ω) (ch : UInt8) : ω :=
  if ch = 0x22 then append out [0x5c, 0x22]
  else if ch = 0x5c then append out [0x5c, 0x5c]
  else if ch = 0x08 then append out [0x5c, 0x62]
  else if ch = 0x0c then append out [0x5c, 0x66]
  else if ch = 0x0a then append out [0x5c, 0x6e]
  else if ch = 0x0d then append out [0x5c, 0x72]
  else if ch = 0x09 then append out [0x5c, 0x74]
  else if ch < 0x20 then
    append (append (append out [0x5c, 0x75, 0x30, 0x30]) [hexByte (ch.toNat / 16)])
      [hexByte (ch.toNat % 16)]
  else out

/-- The loop of `append_escaped`. The bytes from `plain` to the current index are put out in one
piece. -/
def appendRuns (out : ω) (plain : Bytes) : Bytes → ω
  | [] => append out plain
  | ch :: rest =>
    if 0x20 ≤ ch ∧ ch ≠ 0x22 ∧ ch ≠ 0x5c then appendRuns out (plain ++ [ch]) rest
    else appendRuns (appendEscape append (append out plain) ch) [] rest

/-- `append_escaped`. -/
def appendEscaped (out : ω) (value : Bytes) : ω :=
  append (appendRuns append (append out [0x22]) [] value) [0x22]

mutual

/-- `append_canonical`. -/
def appendCanonical (out : ω) : Value → ω
  | .null => append out (ascii "null")
  | .boolean b => append out (if b then ascii "true" else ascii "false")
  | .unsigned n => append out (decimal n.toNat)
  | .string s => appendEscaped append out s
  | .array items => append (appendItems (append out [0x5b]) true items) [0x5d]
  | .object members => append (appendMembers (append out [0x7b]) true members) [0x7d]

def appendItems (out : ω) (first : Bool) : List Value → ω
  | [] => out
  | item :: rest =>
    appendItems (appendCanonical (if first then out else append out [0x2c]) item) false rest

def appendMembers (out : ω) (first : Bool) : List (Bytes × Value) → ω
  | [] => out
  | (key, value) :: rest =>
    appendMembers (appendCanonical (append (appendEscaped append
      (if first then out else append out [0x2c]) key) [0x3a]) value) false rest

end

end Writer

/-! ## What an output has been given -/

theorem escapeByte_plain {ch : UInt8} (h : 0x20 ≤ ch ∧ ch ≠ 0x22 ∧ ch ≠ 0x5c) :
    escapeByte ch = [ch] := by
  obtain ⟨hlow, hquote, hslash⟩ := h
  have hne (c : UInt8) (hc : c < 0x20) : ch ≠ c := by
    rintro rfl
    exact absurd hc (UInt8.not_lt.mpr hlow)
  simp only [escapeByte, hquote, hslash, hne 0x08 (by decide), hne 0x0c (by decide),
    hne 0x0a (by decide), hne 0x0d (by decide), hne 0x09 (by decide), UInt8.not_lt.mpr hlow,
      if_false]

section Appends

variable {ω : Type} {append : ω → Bytes → ω} {R : ω → Bytes → Prop}

/-- An operation adds a text to what an output has been given; `R` says what that is. -/
def Appends (R : ω → Bytes → Prop) (f : ω → ω) (text : Bytes) : Prop :=
  ∀ out data, R out data → R (f out) (data ++ text)

theorem Appends.comp {f g : ω → ω} {x y : Bytes} (hf : Appends R f x) (hg : Appends R g y) :
    Appends R (fun out => g (f out)) (x ++ y) := by
  intro out data h
  rw [← List.append_assoc]
  exact hg _ _ (hf _ _ h)

variable (happend : ∀ x, Appends R (append · x) x)

include happend

theorem appends_escape {ch : UInt8} (h : ¬(0x20 ≤ ch ∧ ch ≠ 0x22 ∧ ch ≠ 0x5c)) :
    Appends R (appendEscape append · ch) (escapeByte ch) := by
  unfold appendEscape escapeByte
  split_ifs with h1 h2 h3 h4 h5 h6 h7 h8
  · exact happend _
  · exact happend _
  · exact happend _
  · exact happend _
  · exact happend _
  · exact happend _
  · exact happend _
  · exact ((happend _).comp (happend _)).comp (happend _)
  · exact absurd ⟨UInt8.not_lt.mp h8, h1, h2⟩ h

theorem appends_runs : ∀ (value plain : Bytes),
    Appends R (appendRuns append · plain value) (plain ++ value.flatMap escapeByte)
  | [], plain => by
    simp only [appendRuns, List.flatMap_nil, List.append_nil]
    exact happend plain
  | ch :: rest, plain => by
    simp only [appendRuns, List.flatMap_cons]
    split
    · next h =>
      rw [escapeByte_plain h, ← List.append_assoc]
      exact appends_runs rest (plain ++ [ch])
    · next h =>
      rw [← List.append_assoc]
      exact ((happend plain).comp (appends_escape happend h)).comp (appends_runs rest [])

theorem appends_escaped (value : Bytes) :
    Appends R (appendEscaped append · value) (escaped value) := by
  have h := ((happend [0x22]).comp (appends_runs happend value [])).comp (happend [0x22])
  rwa [List.nil_append, List.append_assoc] at h

theorem appends_separator (first : Bool) :
    Appends R (fun out => if first then out else append out [0x2c])
      (if first then [] else [0x2c]) := by
  cases first with
  | false => exact happend _
  | true => exact fun out data h => (List.append_nil data).symm ▸ h

theorem appends_items : ∀ (items : List Value) (first : Bool),
    (∀ v ∈ items, Appends R (appendCanonical append · v) (canonical v)) →
    Appends R (appendItems append · first items)
      (if items.isEmpty then [] else (if first then [] else [0x2c]) ++ canonicalItems items)
  | [], first, _ => fun out data h => (List.append_nil data).symm ▸ h
  | item :: rest, first, h => by
    have hitem := (appends_separator happend first).comp (h item List.mem_cons_self)
    have hrest := appends_items rest false fun v hv => h v (List.mem_cons_of_mem _ hv)
    have hboth := hitem.comp hrest
    simp only [appendItems, canonicalItems, List.isEmpty_cons, Bool.false_eq_true, if_false,
      ← List.append_assoc]
    exact hboth

theorem appends_members : ∀ (members : List (Bytes × Value)) (first : Bool),
    (∀ m ∈ members, Appends R (appendCanonical append · m.2) (canonical m.2)) →
    Appends R (appendMembers append · first members)
      (if members.isEmpty then [] else (if first then [] else [0x2c]) ++ canonicalMembers members)
  | [], first, _ => fun out data h => (List.append_nil data).symm ▸ h
  | (key, value) :: rest, first, h => by
    have hkey := (appends_separator happend first).comp (appends_escaped happend key)
    have hmember := (hkey.comp (happend [0x3a])).comp (h (key, value) List.mem_cons_self)
    have hrest := appends_members rest false fun m hm => h m (List.mem_cons_of_mem _ hm)
    have hboth := hmember.comp hrest
    simp only [List.append_assoc] at hboth
    simp only [appendMembers, canonicalMembers, List.isEmpty_cons, Bool.false_eq_true, if_false]
    exact hboth

/-- The writer adds the canonical text. -/
theorem appends_canonical (v : Value) : Appends R (appendCanonical append · v) (canonical v) := by
  induction v using Value.induction with
  | null => exact happend _
  | boolean b => exact happend _
  | unsigned n => exact happend _
  | string s => exact appends_escaped happend s
  | array items ih =>
    have h := ((happend [0x5b]).comp (appends_items happend items true ih)).comp (happend [0x5d])
    simp only [appendCanonical, canonical]
    cases items with
    | nil => exact h
    | cons item rest => exact h
  | object members ih =>
    have h := ((happend [0x7b]).comp (appends_members happend members true ih)).comp
      (happend [0x7d])
    simp only [appendCanonical, canonical]
    cases members with
    | nil => exact h
    | cons m rest => exact h

end Appends

/-! ## The two outputs -/

/-- `canonical` writes into a string. -/
def canonicalText (v : Value) : Bytes :=
  appendCanonical (· ++ ·) [] v

theorem canonicalText_eq (v : Value) : canonicalText v = canonical v := by
  have happend (x : Bytes) : Appends (fun out data => out = data) (· ++ x) x := by
    intro out data h
    rw [h]
  exact appends_canonical happend v [] [] rfl

/-- `CanonicalDigest`: `digest_` behind `buffer_`, of which the first `used_` bytes are held. -/
abbrev CanonicalDigest := Buffered UInt8 Sha256 4096

namespace CanonicalDigest

/-- A new `CanonicalDigest`. -/
def empty : CanonicalDigest := ⟨{}, [], by decide⟩

/-- `CanonicalDigest::append`. -/
def append (d : CanonicalDigest) (data : Bytes) : CanonicalDigest :=
  d.fill Sha256.update data

/-- `CanonicalDigest::finish`, which flushes what is held. -/
def finish (d : CanonicalDigest) : Bytes :=
  (d.state.update d.held).finish

/-- `sha256_canonical`. -/
def sha256Canonical (v : Value) : Bytes :=
  (appendCanonical append empty v).finish

end CanonicalDigest

theorem foldl_update : ∀ (blocks : List Bytes) (s : Sha256),
    blocks.foldl Sha256.update s = s.update blocks.flatten
  | [], s => rfl
  | block :: rest, s => by
    rw [List.foldl_cons, foldl_update rest, List.flatten_cons, Sha256.update_append]

/-- Wherever the buffer was full, the digest is that of all the data. -/
theorem finish_of_fed {data : Bytes} {d : CanonicalDigest}
    (h : d.Fed Sha256.update {} data) : d.finish = sha256 data := by
  obtain ⟨blocks, -, hdata, hstate⟩ := h
  rw [CanonicalDigest.finish, hstate, foldl_update, ← Sha256.update_append, hdata, sha256]

theorem CanonicalDigest.sha256Canonical_eq (v : Value) :
    sha256Canonical v = sha256 (canonical v) := by
  have happend (x : Bytes) :
      Appends (fun d data => Buffered.Fed Sha256.update {} data d) (CanonicalDigest.append · x) x :=
    fun d data h => h.fill x
  exact finish_of_fed (appends_canonical happend v _ [] (Buffered.fed_empty (by decide)))

/-- Two values are equal exactly if their canonical texts are, and the digest that is taken through
the buffer is the digest of the canonical text. -/
theorem canonical_text_decides :
    (∀ a b, WellFormed a → WellFormed b →
      (equalValues a b = true ↔ canonicalText a = canonicalText b)) ∧
    ∀ v, CanonicalDigest.sha256Canonical v = sha256 (canonicalText v) := by
  refine ⟨fun a b ha hb => ?_, fun v => ?_⟩
  · rw [canonicalText_eq, canonicalText_eq, equalValues_iff]
    exact ⟨fun h => h ▸ rfl, canonical_injective ha hb⟩
  · rw [canonicalText_eq, CanonicalDigest.sha256Canonical_eq]

/-- An object with a control byte and a byte outside ASCII in a string, and the array of it. -/
def sampleText : Value :=
  .object [(ascii "a", .array []), (ascii "b", .string [0x01, 0xff])]

/-- An object with two members, and an array that holds it. -/
theorem sampleText_decided :
    (equalValues sampleText (.array [sampleText]) = true ↔
      canonicalText sampleText = canonicalText (.array [sampleText])) ∧
    CanonicalDigest.sha256Canonical sampleText = sha256 (canonicalText sampleText) := by
  have hsample : WellFormed sampleText := by
    rw [sampleText, wellFormed_object]
    refine ⟨?_, ?_⟩
    · unfold Sorted
      decide
    · simp [WellFormed, WellFormedItems]
  exact ⟨canonical_text_decides.1 _ _ hsample (wellFormed_array.mpr (by simpa using hsample)),
    canonical_text_decides.2 _⟩

end Usk.Json
