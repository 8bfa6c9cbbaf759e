import UniversalSetup.Json.Schema

/-!
# Accepted texts

What `parse` returns is within the limits it was given: nesting, number of values, and the length
and encoding of every string. So the canonical text of a parsed value is parsed again, to the same
value, unless it is too long.
-/

namespace Usk.Json

variable {s : Input} {budget n : Nat} {v : Value} {r : Reader}

/-! ## Strings -/

theorem Reader.finishString_admits {s t : Bytes} (h : r.finishString s = .ok t) : r.Admits t := by
  obtain ⟨hs, rfl⟩ := (r.finishString_verdict s).eq_of_ok h
  exact hs

theorem Reader.stringLoop_admits {result rest s rest' : Bytes}
    (h : r.stringLoop result rest = .ok (s, rest')) : r.Admits s := by
  fun_induction Reader.stringLoop r result rest with
  | case2 result tail =>
    rw [bind_eq_ok] at h
    obtain ⟨t, ht, h⟩ := h
    cases h
    exact Reader.finishString_admits ht
  | _ => first | contradiction | (rename_i ih; exact ih h)

/-! ## Containers -/

theorem countItems_concat (vs : List Value) (v : Value) :
    countItems (vs ++ [v]) = countItems vs + count v := by
  induction vs with
  | nil => simp [countItems]
  | cons w vs ih => rw [List.cons_append, countItems, countItems, ih, Nat.add_assoc]

theorem countMembers_insert {o : Object} {key : Bytes} (h : ByteMap.find o key = none)
    (value : Value) : countMembers (ByteMap.insert o key value) = countMembers o + count value := by
  rw [countMembers_perm (ByteMap.insert_perm h value), countMembers, Nat.add_comm]

/-- What a reader that returned `v` has established and counted. -/
structure Reader.Took (r : Reader) (budget n : Nat) (v : Value) (s : Input) : Prop where
  nested : depth v < budget
  strings : AllStrings r.Admits v
  counted : s.values = n + count v
  bounded : s.values ≤ r.limits.maxValues

theorem Reader.Took.fits (h : r.Took budget n v s) : r.Fits budget n v :=
  ⟨h.nested, h.counted ▸ h.bounded, h.strings⟩

/-- The invariant of the two container loops over the values read so far. -/
def Reader.Kept (r : Reader) (budget : Nat) (v : Value) : Prop :=
  depth v < budget ∧ AllStrings r.Admits v

theorem took_array {vs : List Value} (hvs : ∀ v ∈ vs, r.Kept budget v)
    (hn : s.values = n + 1 + countItems vs) (hmax : s.values ≤ r.limits.maxValues) :
    r.Took (budget + 1) n (.array vs) s where
  nested := by
    rw [depth]
    cases budget with
    | zero => cases vs with
      | nil => simp [depthItems]
      | cons v vs => exact absurd (hvs v List.mem_cons_self).1 (Nat.not_lt_zero _)
    | succ b =>
      have := depthItems_le fun v hv => Nat.lt_succ_iff.mp (hvs v hv).1
      omega
  strings := by
    rw [AllStrings, allStringsItems_iff]
    exact fun v hv => (hvs v hv).2
  counted := by rw [hn, count, Nat.add_assoc]
  bounded := hmax

theorem took_object {ms : Object} (hms : ∀ m ∈ ms, r.Admits m.1 ∧ r.Kept budget m.2)
    (hn : s.values = n + 1 + countMembers ms) (hmax : s.values ≤ r.limits.maxValues) :
    r.Took (budget + 1) n (.object ms) s where
  nested := by
    rw [depth]
    cases budget with
    | zero => cases ms with
      | nil => simp [depthMembers]
      | cons m ms => exact absurd (hms m List.mem_cons_self).2.1 (Nat.not_lt_zero _)
    | succ b =>
      have := depthMembers_le fun m hm => Nat.lt_succ_iff.mp (hms m hm).2.1
      omega
  strings := by
    rw [AllStrings, allStringsMembers_iff]
    exact fun m hm => ⟨(hms m hm).1, (hms m hm).2.2⟩
  counted := by rw [hn, count, Nat.add_assoc]
  bounded := hmax

theorem arrayLoop_took {r : Reader} {budget n : Nat} {value : Input → Result (Value × Input)}
    (hv : ∀ s v s', value s = .ok (v, s') → r.Took budget s.values v s') :
    ∀ (fuel : Nat) (s : Input) (acc : List Value) (v : Value) (s' : Input),
      (∀ u ∈ acc, r.Kept budget u) → s.values = n + 1 + countItems acc →
      arrayLoop value fuel s acc = .ok (v, s') → r.Took (budget + 1) n v s'
  | 0, _, _, _, _, _, _, h => by cases h
  | fuel + 1, s, acc, v, s', hacc, hn, h => by
    rw [arrayLoop, bind_eq_ok] at h
    obtain ⟨⟨item, t⟩, hitem, h⟩ := h
    have htook := hv _ _ _ hitem
    have hall : ∀ u ∈ acc ++ [item], r.Kept budget u := by
      intro u hu
      rcases List.mem_append.mp hu with hu | hu
      · exact hacc u hu
      · rw [List.mem_singleton.mp hu]
        exact ⟨htook.nested, htook.strings⟩
    have hcount : t.values = n + 1 + countItems (acc ++ [item]) := by
      rw [htook.counted, hn, countItems_concat, Nat.add_assoc]
    dsimp only at h
    split at h
    · cases h
      exact took_array hall hcount htook.bounded
    · rw [bind_eq_ok] at h
      obtain ⟨rest, -, h⟩ := h
      exact arrayLoop_took hv fuel ⟨rest, t.values⟩ _ v s' hall hcount h

theorem objectLoop_took {r : Reader} {budget n : Nat} {value : Input → Result (Value × Input)}
    (hv : ∀ s v s', value s = .ok (v, s') → r.Took budget s.values v s') :
    ∀ (fuel : Nat) (s : Input) (acc : Object) (v : Value) (s' : Input),
      (∀ m ∈ acc, r.Admits m.1 ∧ r.Kept budget m.2) → s.values = n + 1 + countMembers acc →
      objectLoop r value fuel s acc = .ok (v, s') → r.Took (budget + 1) n v s'
  | 0, _, _, _, _, _, _, h => by cases h
  | fuel + 1, s, acc, v, s', hacc, hn, h => by
    rw [objectLoop] at h
    split at h
    · cases h
    · simp only [bind_eq_ok] at h
      obtain ⟨⟨key, rest⟩, hkey, rest', -, ⟨item, t⟩, hitem, h⟩ := h
      have htook := hv _ _ _ hitem
      split at h
      · cases h
      · next result hresult =>
        rw [ByteMap.emplace] at hresult
        split at hresult
        · cases hresult
        · next hfind =>
          cases hresult
          rw [Option.not_isSome_iff_eq_none] at hfind
          have hall : ∀ m ∈ ByteMap.insert acc key item, r.Admits m.1 ∧ r.Kept budget m.2 := by
            intro m hm
            rcases ByteMap.mem_insert hm with rfl | hm
            · exact ⟨Reader.stringLoop_admits hkey, htook.nested, htook.strings⟩
            · exact hacc m hm
          have hcount : t.values = n + 1 + countMembers (ByteMap.insert acc key item) := by
            rw [htook.counted, countMembers_insert hfind]
            dsimp only
            rw [hn, Nat.add_assoc]
          split at h
          · cases h
            exact took_object hall hcount htook.bounded
          · rw [bind_eq_ok] at h
            obtain ⟨rest, -, h⟩ := h
            exact objectLoop_took hv fuel ⟨rest, t.values⟩ _ v s' hall hcount h

/-! ## Values -/

theorem took_scalar {rest : Bytes} (hd : depth v = 0) (hc : count v = 1)
    (hs : AllStrings r.Admits v) (hn : n + 1 ≤ r.limits.maxValues) :
    r.Took (budget + 1) n v ⟨rest, n + 1⟩ where
  nested := by omega
  strings := hs
  counted := by rw [hc]
  bounded := hn

/-- The value reader keeps to its limits, by recursion on the depth budget. -/
theorem value_took (r : Reader) : ∀ (budget : Nat) (s : Input) (v : Value) (s' : Input),
    r.value budget s = .ok (v, s') → r.Took budget s.values v s'
  | 0, _, _, _, h => by cases h
  | budget + 1, s, v, s', h => by
    have hrec := value_took r budget
    rw [Reader.value] at h
    split at h
    · cases h
    · next hmax =>
      have hn : s.values + 1 ≤ r.limits.maxValues := by omega
      split at h
      · cases h
      · next ch rest _ =>
        by_cases h22 : ch = 0x22
        · subst h22
          replace h : (r.stringLoop [] rest >>= fun x =>
              .ok (Value.string x.1, (⟨x.2, s.values + 1⟩ : Input))) = .ok (v, s') := h
          rw [bind_eq_ok] at h
          obtain ⟨⟨t, rest'⟩, ht, h⟩ := h
          cases h
          exact took_scalar rfl rfl (Reader.stringLoop_admits ht) hn
        by_cases h5b : ch = 0x5b
        · subst h5b
          replace h : array (r.value budget) ⟨rest, s.values + 1⟩ = .ok (v, s') := h
          rw [array] at h
          split at h
          · cases h
            exact took_array (by simp) (by simp [countItems]) hn
          · exact arrayLoop_took hrec _ _ _ v s' (by simp) (by simp [countItems]) h
        by_cases h7b : ch = 0x7b
        · subst h7b
          replace h : object r (r.value budget) ⟨rest, s.values + 1⟩ = .ok (v, s') := h
          rw [object] at h
          split at h
          · cases h
            exact took_object (by simp) (by simp [countMembers]) hn
          · exact objectLoop_took hrec _ _ _ v s' (by simp) (by simp [countMembers]) h
        -- literals and numbers are left
        simp only [if_neg h22, if_neg h5b, if_neg h7b] at h
        repeat' (split at h)
        all_goals first
          | contradiction
          | (rw [bind_eq_ok] at h
             obtain ⟨a, -, h⟩ := h
             cases h
             exact took_scalar rfl rfl trivial hn)

/-- A value that `parse` returns is within the limits. -/
theorem parse_allow {limits : ParseLimits} {t : Bytes} (h : parse t limits = .ok v) :
    t.length ≤ limits.maxBytes ∧ limits.Allow v := by
  rw [parse, Reader.run] at h
  split at h
  · cases h
  · next hlen =>
    rw [bind_eq_ok] at h
    obtain ⟨⟨w, s⟩, hw, h⟩ := h
    dsimp only at h
    split at h
    · cases h
    · cases h
      obtain ⟨hd, hc, hs⟩ := (value_took _ _ _ _ _ hw).fits
      exact ⟨Nat.not_lt.mp hlen, Nat.lt_succ_iff.mp hd, by simpa using hc, hs⟩

/-! ## Round trips -/

/-- The canonical text of a value keeps to the four budgets. -/
def ParseLimits.Room (limits : ParseLimits) (v : Value) : Prop :=
  (canonical v).length ≤ limits.maxBytes ∧ depth v ≤ limits.maxDepth ∧
    count v ≤ limits.maxValues ∧ AllStrings (fun s => s.length ≤ limits.maxStringBytes) v

theorem parse_canonical_of_allow {limits : ParseLimits} (hw : WellFormed v)
    (hlen : (canonical v).length ≤ limits.maxBytes) (h : limits.Allow v) :
    parse (canonical v) limits = .ok v :=
  (parse_encodes (encodes_canonical hw)).1 ⟨hlen, h⟩

/--
Parsing undoes the canonical encoding, and the canonical text of a parsed value is parsed to that
value again.

An object is a map, so its members stand in key order. The second part asks only that the text is
not too long: the other budgets were checked when `t` was parsed.
-/
theorem canonical_parse_roundtrip (limits : ParseLimits) :
    (∀ v, WellFormed v → AllStrings (fun s => validUtf8 s = true) v → limits.Room v →
      parse (canonical v) limits = .ok v) ∧
    (∀ t v, parse t limits = .ok v → (canonical v).length ≤ limits.maxBytes →
      parse (canonical v) limits = .ok v) := by
  constructor
  · rintro v hw hutf ⟨hlen, hd, hc, hs⟩
    exact parse_canonical_of_allow hw hlen ⟨hd, hc, allStrings_and hs hutf⟩
  · intro t v ht hlen
    exact parse_canonical_of_allow (parse_wellFormed ht) hlen (parse_allow ht).2

/-- A value with nesting, an escape and a character beyond ASCII. -/
def sampleValue : Value :=
  .object [(ascii "a", .array [.unsigned 18446744073709551615, .string [0xc3, 0xa9, 0x0a]]),
    (ascii "b", .object [])]

/-- An object and an array that come back from their canonical texts. -/
theorem sampleValue_roundtrip :
    parse (canonical sampleValue) {} = .ok sampleValue ∧
      parse (canonical (.array [.null])) {} = .ok (.array [.null]) := by
  constructor
  · refine (canonical_parse_roundtrip {}).1 sampleValue ?_ ?_ ?_
    · rw [sampleValue, wellFormed_object]
      exact ⟨List.pairwise_pair.mpr (by decide), by simp [WellFormed, WellFormedItems,
        WellFormedMembers, Sorted]⟩
    · simp only [sampleValue, AllStrings, AllStringsMembers, AllStringsItems, and_true, true_and]
      decide
    · simp only [ParseLimits.Room, sampleValue, depth, depthMembers, depthItems, count,
        countMembers, countItems, AllStrings, AllStringsMembers, AllStringsItems]
      decide +kernel
  · refine (canonical_parse_roundtrip {}).2 (ascii " [ null ] ") _ ?_ (by decide +kernel)
    rfl

end Usk.Json
