import UniversalSetup.Base.RelativePath

/-!
# Disjoint roots

`require_disjoint` refuses two roots of a transaction if one of them is at or below the other. It
compares texts: a slash is put behind the one and the other has to begin with it. The text of the
root directory is a slash already, so that nothing is below it.
-/

namespace Usk

open Json (Result)

theorem dropSlashes_concat {c : UInt8} (hc : c ≠ 0x2f) (t : Bytes) :
    dropSlashes (c :: t) = c :: t := by
  cases t with
  | nil => rfl
  | cons d rest => rw [dropSlashes, if_neg hc]

section

variable {path other : Path} {names names' : List Bytes} {trailing trailing' : Bool}

/-- The text that is compared is spelled by the names. -/
theorem NormalPath.comparablePath_eq (h : NormalPath path names trailing) :
    comparablePath path = 0x2f :: joinSlash names := by
  unfold comparablePath
  rw [h.generic, h.spelled]
  unfold Path.ofParts
  rw [if_pos rfl]
  by_cases hnames : names = []
  · have hfalse : trailing = false := Bool.eq_false_iff.mpr fun ht => h.nonempty ht hnames
    rw [hnames, hfalse]
    rfl
  · obtain ⟨n, hn⟩ := Option.ne_none_iff_exists'.mp (mt List.getLast?_eq_none_iff.mp hnames)
    have hplain := h.plain n (List.mem_of_getLast? hn)
    have hend : ∃ c t, (0x2f :: joinSlash names).reverse = c :: t ∧ c ≠ 0x2f := by
      obtain ⟨front, hfront⟩ := List.getLast?_eq_some_iff.mp
        ((joinSlash_getLast hn hplain.nonempty).trans
          (List.getLast?_eq_some_getLast hplain.nonempty))
      refine ⟨n.getLast hplain.nonempty, (0x2f :: front).reverse, ?_, fun heq => ?_⟩
      · rw [hfront, ← List.cons_append, List.reverse_append]
        rfl
      · exact hplain.noSlash (heq ▸ List.getLast_mem hplain.nonempty)
    obtain ⟨c, t, hreverse, hc⟩ := hend
    have hkeep : (dropSlashes (0x2f :: joinSlash names).reverse).reverse =
      0x2f :: joinSlash names := by
      rw [hreverse, dropSlashes_concat hc, ← hreverse, List.reverse_reverse]
    cases trailing with
    | false =>
      rw [if_neg Bool.false_ne_true, List.append_nil]
      exact hkeep
    | true =>
      rw [if_pos rfl, joinSlash_concat _ hnames, List.singleton_append, ← List.cons_append,
        List.reverse_append, List.reverse_singleton, List.singleton_append, hreverse, dropSlashes,
        if_pos rfl, ← hreverse]
      exact hkeep

theorem pathContains_iff (h : NormalPath path names trailing)
    (h' : NormalPath other names' trailing') :
    pathContains path other = true ↔ names <+: names' ∧ (names = [] → names' = []) := by
  have hslash : ∀ n ∈ names, (0x2f : UInt8) ∉ n := fun n hn => (h.plain n hn).noSlash
  have hslash' : ∀ n ∈ names', (0x2f : UInt8) ∉ n := fun n hn => (h'.plain n hn).noSlash
  have hnamed : ∀ n ∈ names, Path.Named n := fun n hn => ⟨(h.plain n hn).nonempty, hslash n hn⟩
  have hnamed' : ∀ n ∈ names', Path.Named n :=
    fun n hn => ⟨(h'.plain n hn).nonempty, hslash' n hn⟩
  have hinj : joinSlash names' = joinSlash names ↔ names' = names := by
    refine ⟨fun heq => ?_, fun heq => heq ▸ rfl⟩
    rw [← segments_joinSlash hnamed, ← heq, segments_joinSlash hnamed']
  unfold pathContains
  rw [h.comparablePath_eq, h'.comparablePath_eq]
  simp only [Bool.or_eq_true, Bool.and_eq_true, beq_iff_eq, decide_eq_true_eq, List.cons.injEq,
    true_and, List.isPrefixOf_iff_prefix, List.cons_append, List.cons_prefix_cons, hinj,
    List.length_cons]
  by_cases hsame : names' = names
  · rw [hsame]
    exact iff_of_true (.inl rfl) ⟨List.prefix_refl _, id⟩
  have hproper : names ≠ names' := fun heq => hsame heq.symm
  by_cases hnames : names = []
  · -- two slashes in front of a name
    have hnames' : names' ≠ [] := fun hnil => hsame (hnil.trans hnames.symm)
    refine iff_of_false ?_ fun hbelow => hnames' (hbelow.2 hnames)
    rintro (heq | ⟨-, rest, hrest⟩)
    · exact hsame heq
    obtain ⟨n, ns, rfl⟩ := List.exists_cons_of_ne_nil hnames'
    obtain ⟨c, hhead, hc⟩ := @Path.head_joinSlash_named n ns (hnamed' n List.mem_cons_self)
    rw [hnames, joinSlash, List.nil_append, List.singleton_append] at hrest
    rw [← hrest] at hhead
    exact hc (Option.some.inj hhead).symm
  by_cases hnames' : names' = []
  · rw [hnames']
    refine iff_of_false ?_ fun hbelow => hnames (List.prefix_nil.mp hbelow.1)
    rintro (heq | ⟨-, hpre⟩)
    · exact hnames heq.symm
    · cases List.append_eq_nil_iff.mp (List.prefix_nil.mp hpre) |>.2
  have hbegins := joinSlash_slash_begins hnames hnames' hslash hslash'
  constructor
  · rintro (heq | ⟨-, hpre⟩)
    · exact absurd heq hsame
    · exact ⟨(hbegins.mp hpre).1, fun hnil => absurd hnil hnames⟩
  · rintro ⟨hpre, -⟩
    have hlonger := hbegins.mpr ⟨hpre, hproper⟩
    have hlength := hlonger.length_le
    rw [List.length_append, List.length_singleton] at hlength
    exact .inr ⟨by omega, hlonger⟩

end

/-- Two roots are refused exactly if one is at or below the other, as long as the root directory is
not one of two different ones: it is taken to be disjoint from everything below it. -/
theorem require_disjoint_exact_iff {left right : Path} (hleft : left.isAbsolute = true)
    (hleft' : left.lexicallyNormal = left) (hright : right.isAbsolute = true)
    (hright' : right.lexicallyNormal = right) :
    ((∃ message, requireDisjoint left right = .error message) ↔
      left.segments <+: right.segments ∨ right.segments <+: left.segments) ↔
    (left.segments = [] ↔ right.segments = []) := by
  obtain ⟨names, trailing, h⟩ := normalPath_lexicallyNormal hleft
  obtain ⟨names', trailing', h'⟩ := normalPath_lexicallyNormal hright
  rw [hleft'] at h
  rw [hright'] at h'
  rw [h.segments_eq, h'.segments_eq]
  have hrefuses : (∃ message, requireDisjoint left right = .error message) ↔
      pathContains left right = true ∨ pathContains right left = true := by
    unfold requireDisjoint
    rw [← Bool.or_eq_true]
    split
    · next hcontains => exact iff_of_true ⟨_, rfl⟩ hcontains
    · next hcontains =>
      refine iff_of_false ?_ hcontains
      rintro ⟨_, hok⟩
      cases hok
  rw [hrefuses, pathContains_iff h h', pathContains_iff h' h]
  by_cases hnil : names = []
  · subst hnil
    simp
  by_cases hnil' : names' = []
  · subst hnil'
    simp [hnil]
  simp [hnil, hnil']

/-- A slash at the end of the outer root does not hide the inner one. -/
theorem nested_roots_refused :
    ∃ message, requireDisjoint ⟨ascii "/srv/"⟩ ⟨ascii "/srv/audit"⟩ = .error message :=
  ((require_disjoint_exact_iff (by decide) (by decide +kernel) (by decide) (by decide +kernel)).mpr
    (by decide +kernel)).mpr (.inl (by decide +kernel))

/-- The root directory and a directory in it pass as disjoint. -/
theorem root_directory_disjoint : requireDisjoint ⟨ascii "/"⟩ ⟨ascii "/a"⟩ = .ok () ∧
    Path.segments ⟨ascii "/"⟩ <+: Path.segments ⟨ascii "/a"⟩ := by
  exact ⟨by decide +kernel, by decide +kernel⟩

end Usk
