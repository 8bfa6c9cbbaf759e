import UniversalSetup.Json.Grammar
import UniversalSetup.Json.Canonical

/-!
# Reading encodings back

* `encodes_value` — a compact encoding is a text of the grammar
* `parse_encodes` — `parse` over an encoding returns the encoded value exactly when the value is
  within the limits
* `encodes_unambiguous` — a text encodes one value only
* `encodes_canonical`, `canonical_injective` — `canonical` writes an encoding, so it loses nothing
-/

namespace Usk.Json

variable {v : Value} {t : Bytes}

/-! ## Encodings in the grammar -/

theorem spells_of_encodes {s e : Bytes} (h : EncodesString s e) : Spells s e := by
  induction h with
  | nil => exact .nil
  | plain h1 h2 h3 _ ih => exact .plain h1 h2 h3 ih
  | short h _ ih => exact .short (short_simpleEscape h) ih
  | @control c s e h _ ih =>
    have hc : c.toNat < 0x20 := by simpa [UInt8.lt_iff_toNat_lt] using h
    have hs : ¬Surrogate c.toNat := fun hs => by
      unfold Surrogate at hs
      omega
    have hu := Spells.unicode (unicodeEscape_control h) hs ih
    rw [appendUtf8_ascii [] h] at hu
    exact hu

theorem elementText_of_value {S : Bytes → Bytes → Prop} (h : ValueText S v t) :
    ElementText S v t := by
  have := ElementText.element blank_nil h blank_nil
  rwa [List.nil_append, List.append_nil] at this

theorem arrayText_of_items {vs : List Value} (h : EncodesItems vs t)
    (hs : vs ≠ [] → ElementsText Spells vs t) :
    ValueText Spells (.array vs) (0x5b :: (t ++ [0x5d])) := by
  cases vs with
  | nil =>
    cases h
    exact .emptyArray blank_nil
  | cons v vs => exact .array (hs (by simp))

theorem objectText_of_members {ms : List (Bytes × Value)} (h : EncodesMembers ms t)
    (hnd : (ByteMap.keys ms).Nodup) (hs : ms ≠ [] → MembersText Spells ms t) :
    ValueText Spells (.object (ByteMap.ofList ms)) (0x7b :: (t ++ [0x7d])) := by
  cases ms with
  | nil =>
    cases h
    exact .emptyObject blank_nil
  | cons m ms => exact .object (hs (by simp)) hnd

mutual

/-- A compact encoding is a text of the grammar. -/
theorem encodes_value {v : Value} {t : Bytes} : Encodes v t → ValueText Spells v t
  | .null => .null
  | .true => .true
  | .false => .false
  | .unsigned n => .unsigned n
  | .string h => .string (spells_of_encodes h)
  | .array h => arrayText_of_items h (encodes_elements h)
  | .object h hnd => objectText_of_members h hnd (encodes_members h)

theorem encodes_elements {vs : List Value} {t : Bytes} :
    EncodesItems vs t → vs ≠ [] → ElementsText Spells vs t
  | .noItems, hne => absurd rfl hne
  | .lastItem h, _ => .last (elementText_of_value (encodes_value h))
  | .item h hs, _ => .more (elementText_of_value (encodes_value h)) (encodes_elements hs (by simp))

theorem encodes_members {ms : List (Bytes × Value)} {t : Bytes} :
    EncodesMembers ms t → ms ≠ [] → MembersText Spells ms t
  | .noMembers, hne => absurd rfl hne
  | .lastMember hk h, _ => .last (.member blank_nil (spells_of_encodes hk) blank_nil
      (elementText_of_value (encodes_value h)))
  | .member hk h hs, _ => by
    have hm := MembersText.more (.member blank_nil (spells_of_encodes hk) blank_nil
      (elementText_of_value (encodes_value h))) (encodes_members hs (by simp))
    simpa using hm

end

/-! ## Whole texts -/

theorem run_encodes (r : Reader) {tail : Bytes} (h : Encodes v t) (ht : Blank tail) :
    Verdict (r.run (t ++ tail))
      ((t ++ tail).length ≤ r.limits.maxBytes ∧ r.Fits (r.limits.maxDepth + 1) 0 v) v :=
  run_element r (.element blank_nil (encodes_value h) ht)

/-- What a reader of a whole text asks of the value that the text encodes. -/
def ParseLimits.Allow (limits : ParseLimits) (v : Value) : Prop :=
  depth v ≤ limits.maxDepth ∧ count v ≤ limits.maxValues ∧
    AllStrings (fun s => s.length ≤ limits.maxStringBytes ∧ validUtf8 s = true) v

/-- `parse` over an encoding. -/
theorem parse_encodes {limits : ParseLimits} (h : Encodes v t) :
    Verdict (parse t limits) (t.length ≤ limits.maxBytes ∧ limits.Allow v) v := by
  have hrun := run_encodes { limits, validString := validUtf8 } h blank_nil
  rw [List.append_nil] at hrun
  refine hrun.congr ?_
  unfold Reader.Fits Reader.Admits ParseLimits.Allow
  simp only [Nat.lt_succ_iff, Nat.zero_add]

/-- `parse` over an encoding on a line of its own. -/
theorem parse_encodes_line {limits : ParseLimits} {v : Value} {t : Bytes} (h : Encodes v t) :
    Verdict (parse (t ++ [0x0a]) limits)
      ((t ++ [0x0a]).length ≤ limits.maxBytes ∧ limits.Allow v) v := by
  refine (run_encodes { limits, validString := validUtf8 } h
    (blank_cons.mpr ⟨by decide, blank_nil⟩)).congr ?_
  unfold Reader.Fits Reader.Admits ParseLimits.Allow
  simp only [Nat.lt_succ_iff, Nat.zero_add]

/--
A text encodes one value only.

The proof reads the text with limits that both values meet and with no demand on its strings.
-/
theorem encodes_unambiguous {w : Value} (hv : Encodes v t) (hw : Encodes w t) : v = w := by
  obtain ⟨m, hm⟩ := exists_stringBound v
  obtain ⟨n, hn⟩ := exists_stringBound w
  let limits : ParseLimits :=
    { maxBytes := t.length, maxDepth := max (depth v) (depth w),
      maxValues := max (count v) (count w), maxStringBytes := max m n }
  let r : Reader := { limits, validString := fun _ => true }
  have hfits : ∀ u, (u = v ∨ u = w) → r.Fits (limits.maxDepth + 1) 0 u := by
    rintro u (rfl | rfl)
    · refine ⟨?_, ?_, hm.mono fun s hs => ⟨Nat.le_trans hs ?_, rfl⟩⟩ <;> simp [r, limits]
    · refine ⟨?_, ?_, hn.mono fun s hs => ⟨Nat.le_trans hs ?_, rfl⟩⟩ <;> simp [r, limits]
  have h1 := (run_encodes r hv blank_nil).1 ⟨by simp [r, limits], hfits v (Or.inl rfl)⟩
  have h2 := (run_encodes r hw blank_nil).1 ⟨by simp [r, limits], hfits w (Or.inr rfl)⟩
  rw [h1] at h2
  exact Except.ok.inj h2

/-! ## The canonical encoding -/

mutual

/-- The members of every object inside a value stand in key order. -/
def WellFormed : Value → Prop
  | .array items => WellFormedItems items
  | .object members => Sorted members ∧ WellFormedMembers members
  | _ => True

def WellFormedItems : List Value → Prop
  | [] => True
  | v :: rest => WellFormed v ∧ WellFormedItems rest

def WellFormedMembers : List (Bytes × Value) → Prop
  | [] => True
  | (_, v) :: rest => WellFormed v ∧ WellFormedMembers rest

end

theorem wellFormedItems_iff : ∀ {vs : List Value},
    WellFormedItems vs ↔ ∀ v ∈ vs, WellFormed v
  | [] => by simp [WellFormedItems]
  | v :: rest => by
    rw [WellFormedItems, wellFormedItems_iff, List.forall_mem_cons]

theorem wellFormedMembers_iff : ∀ {ms : List (Bytes × Value)},
    WellFormedMembers ms ↔ ∀ m ∈ ms, WellFormed m.2
  | [] => by simp [WellFormedMembers]
  | (k, v) :: rest => by
    rw [WellFormedMembers, wellFormedMembers_iff, List.forall_mem_cons]

/-- `escapeByte` writes a short escape, a numeric one, or the byte itself. -/
theorem escapeByte_cases (c : UInt8) :
    (∃ x, (c, x) ∈ shortEscapes ∧ escapeByte c = [0x5c, x]) ∨
    (c < 0x20 ∧ escapeByte c =
      [0x5c, 0x75, 0x30, 0x30, hexByte (c.toNat / 16), hexByte (c.toNat % 16)]) ∨
    (¬c < 0x20 ∧ c ≠ 0x22 ∧ c ≠ 0x5c ∧ escapeByte c = [c]) := by
  by_cases h1 : c = 0x22
  · exact Or.inl ⟨0x22, by subst h1; decide, by subst h1; rfl⟩
  by_cases h2 : c = 0x5c
  · exact Or.inl ⟨0x5c, by subst h2; decide, by subst h2; rfl⟩
  by_cases h3 : c = 0x08
  · exact Or.inl ⟨0x62, by subst h3; decide, by subst h3; rfl⟩
  by_cases h4 : c = 0x0c
  · exact Or.inl ⟨0x66, by subst h4; decide, by subst h4; rfl⟩
  by_cases h5 : c = 0x0a
  · exact Or.inl ⟨0x6e, by subst h5; decide, by subst h5; rfl⟩
  by_cases h6 : c = 0x0d
  · exact Or.inl ⟨0x72, by subst h6; decide, by subst h6; rfl⟩
  by_cases h7 : c = 0x09
  · exact Or.inl ⟨0x74, by subst h7; decide, by subst h7; rfl⟩
  right
  rw [escapeByte, if_neg h1, if_neg h2, if_neg h3, if_neg h4, if_neg h5, if_neg h6, if_neg h7]
  by_cases h8 : c < 0x20
  · exact Or.inl ⟨h8, if_pos h8⟩
  · exact Or.inr ⟨h8, h1, h2, if_neg h8⟩

theorem encodesString_escaped : ∀ s : Bytes, EncodesString s (s.flatMap escapeByte)
  | [] => .nil
  | c :: s => by
    have ih := encodesString_escaped s
    rw [List.flatMap_cons]
    rcases escapeByte_cases c with ⟨x, hx, he⟩ | ⟨hc, he⟩ | ⟨h1, h2, h3, he⟩
    · rw [he]; exact .short hx ih
    · rw [he]; exact .control hc ih
    · rw [he]; exact .plain h1 h2 h3 ih

theorem encodesItems_canonical : ∀ {vs : List Value}, (∀ v ∈ vs, Encodes v (canonical v)) →
    EncodesItems vs (canonicalItems vs)
  | [], _ => by rw [canonicalItems]; exact .noItems
  | [v], h => by
    rw [canonicalItems]
    simpa using EncodesItems.lastItem (h v List.mem_cons_self)
  | v :: w :: vs, h => by
    rw [canonicalItems]
    exact .item (h v List.mem_cons_self)
      (encodesItems_canonical fun u hu => h u (List.mem_cons_of_mem _ hu))

theorem encodesMembers_canonical : ∀ {ms : List (Bytes × Value)},
    (∀ m ∈ ms, Encodes m.2 (canonical m.2)) → EncodesMembers ms (canonicalMembers ms)
  | [], _ => by rw [canonicalMembers]; exact .noMembers
  | [(k, v)], h => by
    rw [canonicalMembers]
    simpa [escaped] using
      EncodesMembers.lastMember (encodesString_escaped k) (h (k, v) List.mem_cons_self)
  | (k, v) :: m :: ms, h => by
    rw [canonicalMembers]
    simpa [escaped] using EncodesMembers.member (encodesString_escaped k)
      (h (k, v) List.mem_cons_self)
      (encodesMembers_canonical fun u hu => h u (List.mem_cons_of_mem _ hu))

/-- The canonical text of a value encodes it. -/
theorem encodes_canonical : WellFormed v → Encodes v (canonical v) := by
  induction v using Value.induction with
  | null => intro _; rw [canonical]; exact .null
  | boolean b =>
    intro _
    rw [canonical]
    cases b
    · exact .false
    · exact .true
  | unsigned n => intro _; rw [canonical]; exact .unsigned n
  | string s => intro _; rw [canonical]; exact .string (encodesString_escaped s)
  | array vs ih =>
    intro h
    rw [WellFormed, wellFormedItems_iff] at h
    rw [canonical]
    exact .array (encodesItems_canonical fun v hv => ih v hv (h v hv))
  | object ms ih =>
    intro h
    rw [WellFormed, wellFormedMembers_iff] at h
    rw [canonical]
    have := Encodes.object (encodesMembers_canonical fun m hm => ih m hm (h.2 m hm))
      (ByteMap.nodup_of_sorted h.1)
    rwa [ByteMap.ofList_of_sorted h.1] at this

/-- Values with the same canonical text are equal. -/
theorem canonical_injective {w : Value} (hv : WellFormed v) (hw : WellFormed w)
    (h : canonical v = canonical w) : v = w :=
  encodes_unambiguous (encodes_canonical hv) (h ▸ encodes_canonical hw)

/-! ## What the reader returns -/

theorem wellFormed_array {vs : List Value} : WellFormed (.array vs) ↔ ∀ v ∈ vs, WellFormed v := by
  rw [WellFormed, wellFormedItems_iff]

theorem wellFormed_object {ms : List (Bytes × Value)} :
    WellFormed (.object ms) ↔ Sorted ms ∧ ∀ m ∈ ms, WellFormed m.2 := by
  rw [WellFormed, wellFormedMembers_iff]

theorem arrayLoop_wellFormed {value : Input → Result (Value × Input)}
    (hv : ∀ s v s', value s = .ok (v, s') → WellFormed v) :
    ∀ (fuel : Nat) (s : Input) (acc : List Value) (v : Value) (s' : Input),
      (∀ u ∈ acc, WellFormed u) → arrayLoop value fuel s acc = .ok (v, s') → WellFormed v
  | 0, _, _, _, _, _, h => by cases h
  | fuel + 1, s, acc, v, s', hacc, h => by
    rw [arrayLoop, bind_eq_ok] at h
    obtain ⟨⟨item, t⟩, hitem, h⟩ := h
    have hall : ∀ u ∈ acc ++ [item], WellFormed u := by
      intro u hu
      rcases List.mem_append.mp hu with hu | hu
      · exact hacc u hu
      · rw [List.mem_singleton.mp hu]
        exact hv _ _ _ hitem
    dsimp only at h
    split at h
    · cases h
      exact wellFormed_array.mpr hall
    · rw [bind_eq_ok] at h
      obtain ⟨rest, -, h⟩ := h
      exact arrayLoop_wellFormed hv fuel _ _ v s' hall h

theorem objectLoop_wellFormed (r : Reader) {value : Input → Result (Value × Input)}
    (hv : ∀ s v s', value s = .ok (v, s') → WellFormed v) :
    ∀ (fuel : Nat) (s : Input) (acc : Object) (v : Value) (s' : Input),
      WellFormed (.object acc) → objectLoop r value fuel s acc = .ok (v, s') → WellFormed v
  | 0, _, _, _, _, _, h => by cases h
  | fuel + 1, s, acc, v, s', hacc, h => by
    rw [objectLoop] at h
    split at h
    · cases h
    · simp only [bind_eq_ok] at h
      obtain ⟨⟨key, rest⟩, -, rest', -, ⟨item, t⟩, hitem, h⟩ := h
      split at h
      · cases h
      · next result hresult =>
        have hins : WellFormed (.object result) := by
          rw [ByteMap.emplace] at hresult
          split at hresult
          · cases hresult
          · cases hresult
            rw [wellFormed_object] at hacc ⊢
            refine ⟨ByteMap.sorted_insert hacc.1 _ _, fun m hm => ?_⟩
            rcases ByteMap.mem_insert hm with rfl | hm
            · exact hv _ _ _ hitem
            · exact hacc.2 m hm
        split at h
        · cases h
          exact hins
        · rw [bind_eq_ok] at h
          obtain ⟨rest, -, h⟩ := h
          exact objectLoop_wellFormed r hv fuel _ _ v s' hins h

theorem value_wellFormed (r : Reader) : ∀ (budget : Nat) (s : Input) (v : Value) (s' : Input),
    r.value budget s = .ok (v, s') → WellFormed v
  | 0, _, _, _, h => by cases h
  | budget + 1, s, v, s', h => by
    have hrec := value_wellFormed r budget
    rw [Reader.value] at h
    split at h
    · cases h
    · split at h
      · cases h
      · next ch rest _ =>
        by_cases h5b : ch = 0x5b
        · subst h5b
          replace h : array (r.value budget) ⟨rest, s.values + 1⟩ = .ok (v, s') := h
          rw [array] at h
          split at h
          · cases h
            exact wellFormed_array.mpr (by simp)
          · exact arrayLoop_wellFormed hrec _ _ _ v s' (by simp) h
        by_cases h7b : ch = 0x7b
        · subst h7b
          replace h : object r (r.value budget) ⟨rest, s.values + 1⟩ = .ok (v, s') := h
          rw [object] at h
          split at h
          · cases h
            exact wellFormed_object.mpr ⟨List.Pairwise.nil, by simp⟩
          · exact objectLoop_wellFormed r hrec _ _ _ v s'
              (wellFormed_object.mpr ⟨List.Pairwise.nil, by simp⟩) h
        -- the remaining tokens are scalars, which carry no members
        simp only [if_neg h5b, if_neg h7b] at h
        repeat' (split at h)
        all_goals first
          | contradiction
          | (rw [bind_eq_ok] at h
             obtain ⟨a, -, h⟩ := h
             cases h
             trivial)

/-- Objects that `parse` returns have their members in key order. -/
theorem parse_wellFormed {limits : ParseLimits} (h : parse t limits = .ok v) : WellFormed v := by
  rw [parse, Reader.run] at h
  split at h
  · cases h
  · rw [bind_eq_ok] at h
    obtain ⟨⟨w, s⟩, hw, h⟩ := h
    dsimp only at h
    split at h
    · cases h
    · cases h
      exact value_wellFormed _ _ _ _ _ hw

end Usk.Json
