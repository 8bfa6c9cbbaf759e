import UniversalSetup.Base.GenericPath

/-!
# Relative texts

The checks of relative paths walk over the parts between slashes and stop at the end of the text.
They do not see the empty part behind a slash at the end, while `std::filesystem::path` has a
component for it. A relative text is one without empty parts but that one, and is known by its names
and whether it ends in a slash.
-/

namespace Usk

/-- The names of a text, and whether there is a slash behind the last of them. -/
structure RelativeText (text : Bytes) (names : List Bytes) (trailing : Bool) : Prop where
  nonempty : names ≠ []
  named : ∀ n ∈ names, Path.Named n
  spelled : text = joinSlash (names ++ if trailing then [[]] else [])

theorem exists_relativeText {text : Bytes} (hne : text ≠ [])
    (hparts : ∀ part ∈ (splitSlash text).dropLast, part ≠ []) :
    ∃ names trailing, RelativeText text names trailing := by
  have htext := joinSlash_splitSlash text
  have hslash : ∀ part ∈ splitSlash text, (0x2f : UInt8) ∉ part :=
    fun part hpart => not_slash_of_mem_splitSlash hpart
  obtain ⟨front, last, hsplit⟩ :=
    (List.eq_nil_or_concat' _).resolve_left (splitSlash_ne_nil text)
  rw [hsplit] at htext hslash hparts
  rw [List.dropLast_concat] at hparts
  have hfront : ∀ n ∈ front, Path.Named n := fun n hn =>
    ⟨hparts n hn, hslash n (List.mem_append_left _ hn)⟩
  by_cases hlast : last = []
  · subst hlast
    refine ⟨front, true, ?_, hfront, htext.symm⟩
    rintro rfl
    exact hne htext.symm
  · refine ⟨front ++ [last], false, by simp, ?_, ?_⟩
    · refine List.forall_mem_append.mpr ⟨hfront, List.forall_mem_singleton.mpr ⟨hlast, ?_⟩⟩
      exact hslash last (List.mem_append_right _ List.mem_cons_self)
    · rw [if_neg Bool.false_ne_true, List.append_nil]
      exact htext.symm

/-! ## Safe texts -/

/-- The loop of `safe_relative` with its check of one part. It stops at the end of the text and does
not see an empty part there. -/
def safeParts (safe : Bytes → Bool) : List Bytes → Bool
  | [] => true
  | [part] => part.isEmpty || safe part
  | part :: next :: rest => safe part && safeParts safe (next :: rest)

/-- What the functions named `safe_relative` have in common. They differ in the check of a part. -/
def safeText (safe : Bytes → Bool) (value : Bytes) : Bool :=
  value != [] && decide (value.length ≤ 4096) && value.head? != some 0x2f &&
    value.head? != some 0x5c && !value.contains 0x5c && !value.contains 0x3a &&
    safeParts safe (splitSlash value)

/-- Every part is checked but an empty one at the end. -/
theorem safe_of_safeParts {safe : Bytes → Bool} : ∀ {parts : List Bytes},
    safeParts safe parts = true →
    (∀ part ∈ parts.dropLast, safe part = true) ∧ ∀ part ∈ parts, part ≠ [] → safe part = true
  | [], _ => ⟨List.forall_mem_nil _, List.forall_mem_nil _⟩
  | [last], h => by
    refine ⟨List.forall_mem_nil _, List.forall_mem_singleton.mpr fun hne => ?_⟩
    rw [safeParts, Bool.or_eq_true] at h
    exact h.resolve_left fun hempty => hne (List.isEmpty_iff.mp hempty)
  | first :: next :: rest, h => by
    rw [safeParts, Bool.and_eq_true] at h
    obtain ⟨hfront, hall⟩ := safe_of_safeParts h.2
    exact ⟨List.forall_mem_cons.mpr ⟨h.1, hfront⟩, List.forall_mem_cons.mpr ⟨fun _ => h.1, hall⟩⟩

theorem relativeText_of_safeText {safe : Bytes → Bool} {value : Bytes} (hempty : safe [] = false)
    (h : safeText safe value = true) : ∃ names trailing, RelativeText value names trailing := by
  simp only [safeText, Bool.and_eq_true, bne_iff_ne] at h
  refine exists_relativeText h.1.1.1.1.1.1 ?_
  rintro part hpart rfl
  rw [(safe_of_safeParts h.2).1 [] hpart] at hempty
  cases hempty

namespace RelativeText

variable {text : Bytes} {names : List Bytes} {trailing : Bool}
    (h : RelativeText text names trailing)

include h

theorem pathNames : (⟨text⟩ : Path).names = names ++ if trailing then [[]] else [] := by
  cases trailing with
  | false =>
    rw [if_neg Bool.false_ne_true, List.append_nil, h.spelled, if_neg Bool.false_ne_true,
      List.append_nil]
    exact names_joinSlash h.nonempty (fun n hn => (h.named n hn).2) fun n hn => (h.named n hn).1
  | true =>
    have hslash : ∀ n ∈ names ++ [[]], (0x2f : UInt8) ∉ n :=
      List.forall_mem_append.mpr ⟨fun n hn => (h.named n hn).2,
        List.forall_mem_singleton.mpr List.not_mem_nil⟩
    have hfilter : (names ++ [[]]).filter (fun n => !n.isEmpty) = names := by
      rw [List.filter_append, List.filter_eq_self.mpr fun n hn => by simpa using (h.named n hn).1]
      simp
    have hlast := joinSlash_trailing h.nonempty
    rw [h.spelled, if_pos rfl]
    unfold Path.names
    dsimp only
    rw [splitSlash_joinSlash (by simp) hslash, hfilter, hlast, if_pos]
    simpa using h.nonempty

theorem segments_eq : (⟨text⟩ : Path).segments = names := by
  unfold Path.segments
  rw [h.pathNames, List.filter_append,
    List.filter_eq_self.mpr fun n hn => by simpa using (h.named n hn).1]
  cases trailing <;> simp

theorem trailing_iff : trailing = true ↔ text.getLast? = some 0x2f := by
  rw [h.spelled]
  cases trailing with
  | true => exact iff_of_true rfl (joinSlash_trailing h.nonempty)
  | false =>
    refine iff_of_false Bool.false_ne_true fun hend => ?_
    rw [if_neg Bool.false_ne_true, List.append_nil] at hend
    obtain ⟨n, hn⟩ := Option.ne_none_iff_exists'.mp (mt List.getLast?_eq_none_iff.mp h.nonempty)
    have hmem := h.named n (List.mem_of_getLast? hn)
    rw [joinSlash_getLast hn hmem.1] at hend
    exact hmem.2 (List.mem_of_getLast? hend)

/-- Without the slash at the end the names are the text. -/
theorem spelled_of_not_trailing (hend : text.getLast? ≠ some 0x2f) : text = joinSlash names := by
  have hfalse : trailing = false := Bool.eq_false_iff.mpr fun ht => hend (h.trailing_iff.mp ht)
  rw [h.spelled, hfalse, if_neg Bool.false_ne_true, List.append_nil]

theorem spelled_of_trailing (hend : text.getLast? = some 0x2f) : text = joinSlash names ++
    [0x2f] := by
  rw [h.spelled, h.trailing_iff.mpr hend, if_pos rfl, joinSlash_concat _ h.nonempty]

end RelativeText

/-- Names are read out of the text that they spell. -/
theorem segments_joinSlash {names : List Bytes} (hnamed : ∀ n ∈ names, Path.Named n) :
    (⟨joinSlash names⟩ : Path).segments = names := by
  by_cases hne : names = []
  · rw [hne]
    rfl
  · exact (RelativeText.mk hne hnamed (by simp) : RelativeText _ names false).segments_eq

theorem joinSlash_append {rest : List Bytes} (hrest : rest ≠ []) : ∀ {front : List Bytes},
    front ≠ [] → joinSlash (front ++ rest) = joinSlash front ++ 0x2f :: joinSlash rest
  | [], h => absurd rfl h
  | [n], _ => by
    obtain ⟨m, ms, rfl⟩ := List.exists_cons_of_ne_nil hrest
    rfl
  | n :: m :: ms, _ => by
    have ih := joinSlash_append hrest (List.cons_ne_nil m ms)
    rw [List.cons_append] at ih
    rw [List.cons_append, List.cons_append, joinSlash, ih, joinSlash, List.append_assoc,
      List.cons_append]

theorem mem_joinSlash_of_mem {c : UInt8} {n : Bytes} (hc : c ∈ n) : ∀ {names : List Bytes},
    n ∈ names → c ∈ joinSlash names
  | [], h => absurd h List.not_mem_nil
  | [m], h => by
    rwa [← List.mem_singleton.mp h]
  | m :: next :: rest, h => by
    rw [joinSlash, List.mem_append]
    rcases List.mem_cons.mp h with rfl | h
    · exact .inl hc
    · exact .inr (List.mem_cons_of_mem _ (mem_joinSlash_of_mem hc h))

/-- A text with a slash behind it begins another one exactly if its names do. -/
theorem joinSlash_slash_begins {front names : List Bytes} (hne : front ≠ []) (hnames : names ≠ [])
    (hfront : ∀ n ∈ front, (0x2f : UInt8) ∉ n) (hslash : ∀ n ∈ names, (0x2f : UInt8) ∉ n) :
    joinSlash front ++ [0x2f] <+: joinSlash names ↔ front <+: names ∧ front ≠ names := by
  constructor
  · rintro ⟨rest, hrest⟩
    have hsplit := splitSlash_joinSlash hnames hslash
    rw [← hrest, List.append_assoc, List.singleton_append, Path.splitSlash_concat,
      splitSlash_joinSlash hne hfront] at hsplit
    refine ⟨⟨_, hsplit⟩, fun heq => splitSlash_ne_nil rest ?_⟩
    rw [← heq] at hsplit
    exact List.append_right_eq_self.mp hsplit
  · rintro ⟨⟨rest, rfl⟩, hproper⟩
    cases rest with
    | nil => exact absurd (List.append_nil front).symm hproper
    | cons n rest =>
      refine ⟨joinSlash (n :: rest), ?_⟩
      rw [joinSlash_append (List.cons_ne_nil n rest) hne, List.append_assoc, List.singleton_append]

/-! ## Leading names -/

theorem mem_inits_dropLast : ∀ {l q : List Bytes}, q ∈ l.inits.dropLast ↔ q <+: l ∧ q ≠ l
  | [], q => by
    simp only [List.inits, List.dropLast_singleton, List.not_mem_nil, List.prefix_nil, false_iff]
    exact fun h => h.2 h.1
  | a :: l, q => by
    have hne : l.inits.map (fun t => a :: t) ≠ [] := by
      cases l <;> simp [List.inits]
    rw [List.inits, List.dropLast_cons_of_ne_nil hne, ← List.map_dropLast, List.mem_cons,
      List.mem_map]
    constructor
    · rintro (rfl | ⟨t, ht, rfl⟩)
      · exact ⟨List.nil_prefix, (List.cons_ne_nil a l).symm⟩
      · obtain ⟨hpre, hneq⟩ := mem_inits_dropLast.mp ht
        exact ⟨List.cons_prefix_cons.mpr ⟨rfl, hpre⟩, fun h => hneq (List.cons.inj h).2⟩
    · rintro ⟨hpre, hneq⟩
      rcases List.prefix_cons_iff.mp hpre with rfl | ⟨t, rfl, ht⟩
      · exact .inl rfl
      · exact .inr ⟨t, mem_inits_dropLast.mpr ⟨ht, fun h => hneq (h ▸ rfl)⟩, rfl⟩

theorem mem_inits_between {l q : List Bytes} :
    q ∈ (l.inits.drop 1).dropLast ↔ q ≠ [] ∧ q <+: l ∧ q ≠ l := by
  cases l with
  | nil =>
    simp only [List.inits, List.drop_one, List.tail_cons, List.dropLast_nil, List.not_mem_nil,
      List.prefix_nil, false_iff]
    exact fun h => h.1 h.2.1
  | cons a l =>
    rw [List.inits, List.drop_one, List.tail_cons, ← List.map_dropLast, List.mem_map]
    constructor
    · rintro ⟨t, ht, rfl⟩
      obtain ⟨hpre, hneq⟩ := mem_inits_dropLast.mp ht
      exact ⟨List.cons_ne_nil a t, List.cons_prefix_cons.mpr ⟨rfl, hpre⟩,
        fun h => hneq (List.cons.inj h).2⟩
    · rintro ⟨hne, hpre, hneq⟩
      rcases List.prefix_cons_iff.mp hpre with rfl | ⟨t, rfl, ht⟩
      · exact absurd rfl hne
      · exact ⟨t, mem_inits_dropLast.mpr ⟨ht, fun h => hneq (h ▸ rfl)⟩, rfl⟩

end Usk
