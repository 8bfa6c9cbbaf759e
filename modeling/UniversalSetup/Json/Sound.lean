import UniversalSetup.Json.Accepted
import UniversalSetup.Json.Literal

/-!
# Accepted texts are texts of the grammar

The reader is taken apart along its recursion: what each function has consumed when it returns is a
production of the grammar. With `reads_value` this makes the reader and the grammar agree.

* `parse_iff_elementText` — `parse` returns a value exactly on the texts that denote it and stay
  within the limits
-/

namespace Usk.Json

variable {c : UInt8} {rest s t : Bytes} {v : Value}

/-! ## Numbers -/

theorem digit_cases (h : isDigit c = true) :
    c.toNat - 0x30 < 10 ∧ digitByte (c.toNat - 0x30) = c := by
  have hr : 0x30 ≤ c.toNat ∧ c.toNat ≤ 0x39 := byte_between.mp h
  refine ⟨by omega, ?_⟩
  rw [digitByte]
  exact ofNat_eq (by omega)

/-- The digit loop with a nonzero result so far. -/
theorem numberLoop_digits : ∀ {rest : Bytes} {result n : Nat} {rest' : Bytes}, result ≠ 0 →
    result ≤ maxUInt64 → numberLoop result rest = .ok (n, rest') →
    n ≤ maxUInt64 ∧ decimal result ++ rest = decimal n ++ rest'
  | [], result, n, rest', _, hmax, h => by
    cases h
    exact ⟨hmax, rfl⟩
  | c :: rest, result, n, rest', hne, hmax, h => by
    rw [numberLoop] at h
    split at h
    · next hc =>
      dsimp only at h
      split at h
      · cases h
      · next hover =>
        obtain ⟨hlt, hbyte⟩ := digit_cases hc
        have hfit : result * 10 + (c.toNat - 0x30) ≤ maxUInt64 := by
          unfold maxUInt64 at hover ⊢
          omega
        have hdiv : (result * 10 + (c.toNat - 0x30)) / 10 = result := by omega
        have hmod : (result * 10 + (c.toNat - 0x30)) % 10 = c.toNat - 0x30 := by omega
        have hdec : decimal (result * 10 + (c.toNat - 0x30)) = decimal result ++ [c] := by
          rw [decimal_append (by omega), hdiv, hmod, hbyte]
        obtain ⟨hn, heq⟩ := numberLoop_digits (by omega) hfit h
        rw [hdec, List.append_assoc, List.singleton_append] at heq
        exact ⟨hn, heq⟩
    · cases h
      exact ⟨hmax, rfl⟩

theorem number_decimal_of_ok {rest' : Bytes} {n : Nat} (hc : isDigit c = true)
    (h : number (c :: rest) = .ok (n, rest')) : n ≤ maxUInt64 ∧ c :: rest = decimal n ++ rest' := by
  rw [number] at h
  split at h
  · cases h
  · next hzero =>
    rw [bind_eq_ok] at h
    obtain ⟨⟨m, rest''⟩, hloop, h⟩ := h
    dsimp only at h
    split at h
    · cases h
    · cases h
      obtain ⟨hlt, hbyte⟩ := digit_cases hc
      have hfirst : numberLoop (c.toNat - 0x30) rest = .ok (n, rest') := by
        rw [numberLoop, if_pos hc] at hloop
        dsimp only at hloop
        rw [if_neg (by omega), Nat.zero_mul, Nat.zero_add] at hloop
        exact hloop
      have hone : [c] = decimal (c.toNat - 0x30) := by rw [decimal_of_lt hlt, hbyte]
      by_cases hd : c.toNat - 0x30 = 0
      · -- after a leading zero the loop stops at once
        have hstop : numberLoop 0 rest = .ok (0, rest) := by
          cases rest with
          | nil => rfl
          | cons d rest =>
            have hnd : ¬isDigit d = true := by
              rw [hd] at hbyte
              rw [← hbyte] at hzero
              simpa [leadingZero, digitByte] using hzero
            rw [numberLoop, if_neg hnd]
        rw [hd, hstop] at hfirst
        cases hfirst
        exact ⟨by decide, by rw [← List.singleton_append, hone, hd]⟩
      · have hmax : c.toNat - 0x30 ≤ maxUInt64 := by
          unfold maxUInt64
          omega
        obtain ⟨hn, heq⟩ := numberLoop_digits hd hmax hfirst
        exact ⟨hn, by rw [← List.singleton_append, hone, heq]⟩

/-! ## Strings -/

/-- What the string loop has read when it returns. -/
theorem Reader.stringLoop_spelled {r : Reader} {result rest' : Bytes}
    (h : r.stringLoop result rest = .ok (s, rest')) :
    ∃ s' e, s = result ++ s' ∧ Spells s' e ∧ rest = e ++ 0x22 :: rest' := by
  fun_induction Reader.stringLoop r result rest with
  | case2 result tail =>
    rw [bind_eq_ok] at h
    obtain ⟨t, ht, h⟩ := h
    cases h
    obtain ⟨-, rfl⟩ := (r.finishString_verdict result).eq_of_ok ht
    exact ⟨[], [], by simp, .nil, rfl⟩
  | case4 result c rest hq hc hb ih =>
    obtain ⟨s', e, rfl, hs, rfl⟩ := ih h
    exact ⟨c :: s', c :: e, by simp, .plain hc hq hb hs, rfl⟩
  | case10 result c _ _ hb a b c' d high hh hhigh s0 s1 hu w x y z rest low hl hlow ih =>
    obtain ⟨s', e, heq, hs, rfl⟩ := ih h
    obtain rfl : c = 0x5c := not_not.mp hb
    simp only [Bool.or_eq_true, Bool.and_eq_true, decide_eq_true_eq, not_or, ne_eq, not_not,
      Nat.not_lt] at hu hlow hhigh
    obtain ⟨rfl, rfl⟩ := hu
    refine ⟨_, _, ?_, .pair hh hhigh hl hlow hs, rfl⟩
    rw [heq, appendUtf8_eq result, List.append_assoc]
  | case14 result c _ _ hb a b c' d rest codepoint hu hhigh hlow ih =>
    obtain ⟨s', e, rfl, hs, rfl⟩ := ih h
    obtain rfl : c = 0x5c := not_not.mp hb
    simp only [Bool.and_eq_true, decide_eq_true_eq] at hhigh hlow
    have hsur : ¬Surrogate codepoint := fun hsur => by
      unfold Surrogate at hsur
      omega
    exact ⟨_, _, by rw [appendUtf8_eq result, List.append_assoc], .unicode hu hsur hs, rfl⟩
  | case16 result c _ _ hb escaped rest _ c' hc' ih =>
    obtain ⟨s', e, rfl, hs, rfl⟩ := ih h
    obtain rfl : c = 0x5c := not_not.mp hb
    exact ⟨c' :: s', _, by simp, .short hc' hs, rfl⟩
  -- every other branch throws
  | _ => contradiction

/-! ## Punctuation -/

theorem consume_eq_some (h : consume c s = some rest) : s = c :: rest := by
  cases s with
  | nil => cases h
  | cons d s =>
    rw [consume] at h
    split at h
    · next hd =>
      cases h
      rw [hd]
    · cases h

/-- A consumed byte with the white space in front of it. -/
theorem blank_of_consume (h : consume c (skipSpace s) = some rest) :
    ∃ w, Blank w ∧ s = w ++ c :: rest := by
  obtain ⟨w, hw, hs⟩ := exists_blank s
  exact ⟨w, hw, by rw [← consume_eq_some h, ← hs]⟩

theorem blank_of_require (h : require c s = .ok rest) : ∃ w, Blank w ∧ s = w ++ c :: rest := by
  rw [require] at h
  split at h
  · next hc =>
    cases h
    exact blank_of_consume hc
  · cases h

theorem literal_eq_ok {word : String} (h : literal word s = .ok rest) : s = ascii word ++ rest := by
  rw [literal] at h
  split at h
  · next hp =>
    cases h
    obtain ⟨t, rfl⟩ := List.isPrefixOf_iff_prefix.mp hp
    simp
  · cases h

/-! ## Containers -/

/-- What a value reader has consumed when it returns. -/
def Consumes (s : Bytes) (v : Value) (rest : Bytes) : Prop :=
  ∃ w t, Blank w ∧ ValueText Spells v t ∧ s = w ++ (t ++ rest)

/-- With the white space that follows it, a consumed value is an element. -/
theorem Consumes.element {s rest w' tail : Bytes} {v : Value} (h : Consumes s v rest)
    (hw' : Blank w') (hr : rest = w' ++ tail) :
    ∃ t, ElementText Spells v t ∧ s = t ++ tail := by
  obtain ⟨w, t, hw, ht, rfl⟩ := h
  exact ⟨_, .element hw ht hw', by rw [hr, List.append_assoc, List.append_assoc]⟩

theorem arrayLoop_consumes {value : Input → Result (Value × Input)}
    (hv : ∀ s v s', value s = .ok (v, s') → Consumes s.rest v s'.rest) :
    ∀ (fuel : Nat) (s : Input) (acc : List Value) (v : Value) (s' : Input),
      arrayLoop value fuel s acc = .ok (v, s') → ∃ vs t, v = .array (acc ++ vs) ∧
        ElementsText Spells vs t ∧ s.rest = t ++ 0x5d :: s'.rest
  | 0, _, _, _, _, h => by cases h
  | fuel + 1, s, acc, v, s', h => by
    rw [arrayLoop, bind_eq_ok] at h
    obtain ⟨⟨item, u⟩, hitem, h⟩ := h
    have hc := hv _ _ _ hitem
    dsimp only at h
    split at h
    · next rest hclose =>
      cases h
      obtain ⟨w, hw, hrest⟩ := blank_of_consume hclose
      obtain ⟨t, ht, hs⟩ := hc.element hw hrest
      exact ⟨[item], t, rfl, .last ht, hs⟩
    · rw [bind_eq_ok] at h
      obtain ⟨rest, hcomma, h⟩ := h
      obtain ⟨w, hw, hrest⟩ := blank_of_require hcomma
      obtain ⟨t, ht, hs⟩ := hc.element hw hrest
      obtain ⟨vs, u, rfl, hvs, hu⟩ := arrayLoop_consumes hv fuel _ _ v s' h
      refine ⟨item :: vs, t ++ 0x2c :: u, by simp, .more ht hvs, ?_⟩
      rw [hs, List.append_assoc, List.cons_append]
      exact congrArg (fun x => t ++ 0x2c :: x) hu

theorem objectLoop_consumes {r : Reader} {value : Input → Result (Value × Input)}
    (hv : ∀ s v s', value s = .ok (v, s') → Consumes s.rest v s'.rest) :
    ∀ (fuel : Nat) (s : Input) (acc : Object) (v : Value) (s' : Input),
      objectLoop r value fuel s acc = .ok (v, s') → ∃ ms t,
        v = .object (ms.foldl (fun o m => ByteMap.insert o m.1 m.2) acc) ∧
        MembersText Spells ms t ∧ (ByteMap.keys ms).Nodup ∧
        (∀ m ∈ ms, ByteMap.find acc m.1 = none) ∧ s.rest = t ++ 0x7d :: s'.rest
  | 0, _, _, _, _, h => by cases h
  | fuel + 1, s, acc, v, s', h => by
    rw [objectLoop] at h
    split at h
    · cases h
    · next quoted hquote =>
      simp only [bind_eq_ok] at h
      obtain ⟨⟨key, afterKey⟩, hkey, afterColon, hcolon, ⟨item, u⟩, hitem, h⟩ := h
      have hc := hv _ _ _ hitem
      obtain ⟨w, hw, hopen⟩ := blank_of_consume hquote
      obtain ⟨_, e, rfl, hspell, hinside⟩ := Reader.stringLoop_spelled hkey
      obtain ⟨w', hw', hafter⟩ := blank_of_require hcolon
      replace hafter : afterKey = w' ++ 0x3a :: afterColon := hafter
      have hmember : ∀ {t tail : Bytes}, ElementText Spells item t → afterColon = t ++ tail →
          ∃ u, MemberText Spells (key, item) u ∧ s.rest = u ++ tail := by
        rintro t tail ht rfl
        exact ⟨_, .member hw hspell hw' ht, by rw [hopen, hinside, hafter]; simp⟩
      split at h
      · cases h
      · next result hresult =>
        rw [ByteMap.emplace] at hresult
        split at hresult
        · cases hresult
        · next hfind =>
          cases hresult
          rw [Option.not_isSome_iff_eq_none] at hfind
          split at h
          · next rest hclose =>
            cases h
            obtain ⟨w'', hw'', hrest⟩ := blank_of_consume hclose
            obtain ⟨t, ht, hs⟩ := hc.element hw'' hrest
            obtain ⟨u, hu, hs⟩ := hmember ht hs
            exact ⟨[(key, item)], u, rfl, .last hu, List.nodup_singleton
              _, by simpa using hfind, hs⟩
          · rw [bind_eq_ok] at h
            obtain ⟨rest, hcomma, h⟩ := h
            obtain ⟨w'', hw'', hrest⟩ := blank_of_require hcomma
            obtain ⟨t, ht, hs⟩ := hc.element hw'' hrest
            obtain ⟨u, hu, hs⟩ := hmember ht hs
            obtain ⟨ms, t', rfl, hms, hnd, hnew, ht'⟩ := objectLoop_consumes hv fuel _ _ v s' h
            -- a later key is neither in the object before this member nor this member's key
            have hother : ∀ m ∈ ms, m.1 ≠ key ∧ ByteMap.find acc m.1 = none := by
              intro m hm
              have := hnew m hm
              rw [ByteMap.find_insert hfind] at this
              split at this
              · cases this
              · next hne => exact ⟨Ne.symm hne, this⟩
            refine ⟨(key, item) :: ms, u ++ 0x2c :: t', rfl, .more hu hms, ?_, ?_, ?_⟩
            · refine List.nodup_cons.mpr ⟨fun hm => ?_, hnd⟩
              obtain ⟨m, hm, heq⟩ := List.mem_map.mp hm
              exact (hother m hm).1 heq
            · exact List.forall_mem_cons.mpr ⟨hfind, fun m hm => (hother m hm).2⟩
            · rw [hs, List.append_assoc, List.cons_append]
              exact congrArg (fun x => u ++ 0x2c :: x) ht'

/-! ## Values -/

/-- The value reader, by recursion on the depth budget. -/
theorem value_consumes (r : Reader) : ∀ (budget : Nat) (s : Input) (v : Value) (s' : Input),
    r.value budget s = .ok (v, s') → Consumes s.rest v s'.rest
  | 0, _, _, _, h => by cases h
  | budget + 1, s, v, s', h => by
    have hrec := value_consumes r budget
    obtain ⟨w, hw, hrest⟩ := exists_blank s.rest
    rw [Reader.value] at h
    split at h
    · cases h
    · split at h
      · cases h
      · next ch rest hskip =>
        have htext : ∀ {t : Bytes}, ValueText Spells v t → ch :: rest = t ++ s'.rest →
            Consumes s.rest v s'.rest :=
          fun ht heq => ⟨w, _, hw, ht, by rw [← heq, ← hskip]; exact hrest⟩
        by_cases h22 : ch = 0x22
        · subst h22
          replace h : (r.stringLoop [] rest >>= fun x =>
              .ok (Value.string x.1, (⟨x.2, s.values + 1⟩ : Input))) = .ok (v, s') := h
          rw [bind_eq_ok] at h
          obtain ⟨⟨s, rest'⟩, hs, h⟩ := h
          cases h
          obtain ⟨_, e, rfl, he, rfl⟩ := Reader.stringLoop_spelled hs
          exact htext (.string he) (by simp)
        by_cases h5b : ch = 0x5b
        · subst h5b
          replace h : array (r.value budget) ⟨rest, s.values + 1⟩ = .ok (v, s') := h
          rw [array] at h
          split at h
          · next hclose =>
            cases h
            obtain ⟨w', hw', heq⟩ := blank_of_consume hclose
            exact htext (.emptyArray hw') (by simpa using heq)
          · obtain ⟨vs, t, rfl, ht, heq⟩ := arrayLoop_consumes hrec _ _ _ v s' h
            exact htext (.array ht) (by simpa using heq)
        by_cases h7b : ch = 0x7b
        · subst h7b
          replace h : object r (r.value budget) ⟨rest, s.values + 1⟩ = .ok (v, s') := h
          rw [object] at h
          split at h
          · next hclose =>
            cases h
            obtain ⟨w', hw', heq⟩ := blank_of_consume hclose
            exact htext (.emptyObject hw') (by simpa using heq)
          · obtain ⟨ms, t, rfl, ht, hnd, -, heq⟩ := objectLoop_consumes hrec _ _ _ v s' h
            exact htext (.object ht hnd) (by simpa using heq)
        simp only [if_neg h22, if_neg h5b, if_neg h7b] at h
        split at h
        · rw [bind_eq_ok] at h
          obtain ⟨rest', hlit, h⟩ := h
          cases h
          exact htext .null (literal_eq_ok hlit)
        split at h
        · rw [bind_eq_ok] at h
          obtain ⟨rest', hlit, h⟩ := h
          cases h
          exact htext .true (literal_eq_ok hlit)
        split at h
        · rw [bind_eq_ok] at h
          obtain ⟨rest', hlit, h⟩ := h
          cases h
          exact htext .false (literal_eq_ok hlit)
        split at h
        · next hdigit =>
          rw [bind_eq_ok] at h
          obtain ⟨⟨n, rest'⟩, hnum, h⟩ := h
          cases h
          obtain ⟨hmax, heq⟩ := number_decimal_of_ok hdigit hnum
          have hn : (UInt64.ofNat n).toNat = n := by
            rw [UInt64.toNat_ofNat']
            exact Nat.mod_eq_of_lt (Nat.lt_of_le_of_lt hmax (by decide))
          exact htext (.unsigned _) (by rw [hn]; exact heq)
        · cases h

theorem run_element_of_ok {r : Reader} (h : r.run t = .ok v) : ElementText Spells v t := by
  rw [Reader.run] at h
  split at h
  · cases h
  · rw [bind_eq_ok] at h
    obtain ⟨⟨w, s⟩, hvalue, h⟩ := h
    dsimp only at h
    split at h
    · cases h
    · next hend =>
      cases h
      obtain ⟨w1, hw1, ht⟩ := exists_blank t
      obtain ⟨w2, u, hw2, hu, hs⟩ := value_consumes r _ _ _ _ hvalue
      obtain ⟨w3, hw3, hrest⟩ := exists_blank s.rest
      rw [not_not.mp hend, List.append_nil] at hrest
      dsimp only at hs
      have hblank : Blank (w1 ++ w2) := by
        intro c hc
        exact (List.mem_append.mp hc).elim (hw1 c) (hw2 c)
      have helement := ElementText.element hblank hu hw3
      rw [List.append_assoc, ← hrest, ← hs, ← ht] at helement
      exact helement

/-! ## What string literals denote -/

section Literals

variable {S S' : Bytes → Bytes → Prop} {P : Bytes → Prop}

mutual

/-- What holds of every string literal holds of every string of the value. -/
theorem strings_value (hS : ∀ s e, S s e → P s) {v : Value} {t : Bytes} :
    ValueText S v t → AllStrings P v
  | .null => trivial
  | .true => trivial
  | .false => trivial
  | .unsigned _ => trivial
  | .string h => hS _ _ h
  | .emptyArray _ => trivial
  | .array h => strings_elements hS h
  | .emptyObject _ => trivial
  | .object h hnd => (allStringsMembers_perm (ByteMap.ofList_perm hnd)).mpr (strings_members hS h)

theorem strings_element (hS : ∀ s e, S s e → P s) {v : Value} {t : Bytes} :
    ElementText S v t → AllStrings P v
  | .element _ h _ => strings_value hS h

theorem strings_elements (hS : ∀ s e, S s e → P s) {vs : List Value} {t : Bytes} :
    ElementsText S vs t → AllStringsItems P vs
  | .last h => ⟨strings_element hS h, trivial⟩
  | .more h hs => ⟨strings_element hS h, strings_elements hS hs⟩

theorem strings_member (hS : ∀ s e, S s e → P s) {m : Bytes × Value} {t : Bytes} :
    MemberText S m t → P m.1 ∧ AllStrings P m.2
  | .member _ hk _ h => ⟨hS _ _ hk, strings_element hS h⟩

theorem strings_members (hS : ∀ s e, S s e → P s) {ms : List (Bytes × Value)} {t : Bytes} :
    MembersText S ms t → AllStringsMembers P ms
  | .last h => ⟨(strings_member hS h).1, (strings_member hS h).2, trivial⟩
  | .more h hs => ⟨(strings_member hS h).1, (strings_member hS h).2, strings_members hS hs⟩

end

mutual

/-- The literals of a text may be read another way when its strings allow it. -/
theorem reread_value (hS : ∀ s e, S s e → P s → S' s e) {v : Value} {t : Bytes} :
    ValueText S v t → AllStrings P v → ValueText S' v t
  | .null, _ => .null
  | .true, _ => .true
  | .false, _ => .false
  | .unsigned n, _ => .unsigned n
  | .string h, hp => .string (hS _ _ h hp)
  | .emptyArray h, _ => .emptyArray h
  | .array h, hp => .array (reread_elements hS h hp)
  | .emptyObject h, _ => .emptyObject h
  | .object h hnd, hp => .object
      (reread_members hS h ((allStringsMembers_perm (ByteMap.ofList_perm hnd)).mp hp)) hnd

theorem reread_element (hS : ∀ s e, S s e → P s → S' s e) {v : Value} {t : Bytes} :
    ElementText S v t → AllStrings P v → ElementText S' v t
  | .element hw h hw', hp => .element hw (reread_value hS h hp) hw'

theorem reread_elements (hS : ∀ s e, S s e → P s → S' s e) {vs : List Value} {t : Bytes} :
    ElementsText S vs t → AllStringsItems P vs → ElementsText S' vs t
  | .last h, hp => .last (reread_element hS h hp.1)
  | .more h hs, hp => .more (reread_element hS h hp.1) (reread_elements hS hs hp.2)

theorem reread_member (hS : ∀ s e, S s e → P s → S' s e) {m : Bytes × Value} {t : Bytes} :
    MemberText S m t → P m.1 ∧ AllStrings P m.2 → MemberText S' m t
  | .member hw hk hw' h, hp => .member hw (hS _ _ hk hp.1) hw' (reread_element hS h hp.2)

theorem reread_members (hS : ∀ s e, S s e → P s → S' s e) {ms : List (Bytes × Value)}
    {t : Bytes} : MembersText S ms t → AllStringsMembers P ms → MembersText S' ms t
  | .last h, hp => .last (reread_member hS h ⟨hp.1, hp.2.1⟩)
  | .more h hs, hp => .more (reread_member hS h ⟨hp.1, hp.2.1⟩) (reread_members hS hs hp.2.2)

end

end Literals

/-- With UTF-8 strings the two readings of literals give the same texts. -/
theorem elementText_denotes_iff : ElementText Denotes v t ↔
    ElementText Spells v t ∧ AllStrings (fun s => validUtf8 s = true) v := by
  constructor
  · intro h
    have hutf := strings_element (P := fun s => validUtf8 s = true)
      (fun _ _ hs => (denotes_iff.mp hs).2) h
    exact ⟨reread_element (P := fun _ => True) (fun _ _ hs _ => (denotes_iff.mp hs).1) h
      (hutf.mono fun _ _ => trivial), hutf⟩
  · rintro ⟨h, hutf⟩
    exact reread_element (P := fun s => validUtf8 s = true)
      (fun _ _ hs hv => denotes_iff.mpr ⟨hs, hv⟩) h hutf

/-! ## The accepted language -/

/-- The four budgets of a parser for a text and the value it denotes. -/
structure ParseLimits.Hold (limits : ParseLimits) (t : Bytes) (v : Value) : Prop where
  bytes : t.length ≤ limits.maxBytes
  nesting : depth v ≤ limits.maxDepth
  values : count v ≤ limits.maxValues
  strings : AllStrings (fun s => s.length ≤ limits.maxStringBytes) v

theorem parse_elementText {limits : ParseLimits} :
    parse t limits = .ok v ↔ ElementText Denotes v t ∧ limits.Hold t v := by
  rw [elementText_denotes_iff]
  constructor
  · intro h
    obtain ⟨hbytes, hdepth, hcount, hstrings⟩ := parse_allow h
    exact ⟨⟨run_element_of_ok h, hstrings.mono fun _ hs => hs.2⟩, hbytes, hdepth, hcount,
      hstrings.mono fun _ hs => hs.1⟩
  · rintro ⟨⟨ht, hutf⟩, hold⟩
    refine (run_element { limits, validString := validUtf8 } ht).1 ⟨hold.bytes, ?_⟩
    exact ⟨Nat.lt_succ_of_le hold.nesting, by simpa using hold.values,
      allStrings_and hold.strings hutf⟩

/-- Limits that a given value meets. -/
theorem exists_hold (t : Bytes) (v w : Value) :
    ∃ limits : ParseLimits, limits.Hold t v ∧ limits.Hold t w := by
  obtain ⟨m, hm⟩ := exists_stringBound v
  obtain ⟨n, hn⟩ := exists_stringBound w
  refine ⟨⟨t.length, max (depth v) (depth w), max (count v) (count w), max m n⟩, ?_, ?_⟩
  · exact ⟨Nat.le_refl _, Nat.le_max_left _ _, Nat.le_max_left _ _,
      hm.mono fun s hs => Nat.le_trans hs (Nat.le_max_left _ _)⟩
  · exact ⟨Nat.le_refl _, Nat.le_max_right _ _, Nat.le_max_right _ _,
      hn.mono fun s hs => Nat.le_trans hs (Nat.le_max_right _ _)⟩

theorem elementText_unambiguous {w : Value} (hv : ElementText Denotes v t)
    (hw : ElementText Denotes w t) : v = w := by
  obtain ⟨limits, h1, h2⟩ := exists_hold t v w
  have hpv := parse_elementText.mpr ⟨hv, h1⟩
  have hpw := parse_elementText.mpr ⟨hw, h2⟩
  rw [hpv] at hpw
  exact Except.ok.inj hpw

/--
`parse` accepts exactly the texts of the grammar that stay within the four budgets, and returns
the one value such a text denotes.
-/
theorem parse_accepts_grammar (t : Bytes) (limits : ParseLimits) :
    ((∃ v, parse t limits = .ok v) ↔ ∃ v, ElementText Denotes v t ∧ limits.Hold t v) ∧
      ∀ v, parse t limits = .ok v → ∀ w, ElementText Denotes w t ↔ w = v := by
  refine ⟨exists_congr fun v => parse_elementText, fun v h w => ?_⟩
  have hv := (parse_elementText.mp h).1
  exact ⟨fun hw => elementText_unambiguous hw hv, fun hw => hw ▸ hv⟩

/-- A text with blanks wherever the grammar allows them. -/
theorem spacedArray_denoted :
    parse (ascii " [ 7 , null ]\n") {} = .ok (.array [.unsigned 7, .null]) ∧
      ∀ w, ElementText Denotes w (ascii " [ 7 , null ]\n") ↔ w = .array [.unsigned 7, .null] :=
  ⟨rfl, (parse_accepts_grammar _ {}).2 _ rfl⟩

end Usk.Json
