import UniversalSetup.Base.Path

/-!
# Normalized absolute paths

What `lexically_normal` makes of an absolute path: a slash, then plain names, and possibly one
trailing slash. Such a path is spelled by its components, so that comparing spellings and comparing
components is the same, and normalizing it again does nothing.
-/

namespace Usk

namespace Path

/-- The named components: what the file system goes through. -/
def segments (p : Path) : List Bytes :=
  p.names.filter fun n => !n.isEmpty

/-- The path ends in a slash. -/
def trailing (p : Path) : Bool :=
  p.names.getLast? == some []

/-- The number of directories that the rest of a base path goes down. -/
def depthOf : List Bytes → Int
  | [] => 0
  | n :: rest =>
    if n = ascii ".." then depthOf rest - 1
    else if n = [] || n = ascii "." then depthOf rest
    else depthOf rest + 1

/-- The components of both paths without what they have in common at the start. -/
def mismatch : List Bytes → List Bytes → List Bytes × List Bytes
  | a :: as, b :: bs => if a = b then mismatch as bs else (a :: as, b :: bs)
  | as, bs => (as, bs)

/-- `lexically_relative`, as the components of the result. An empty result is `none`. -/
def lexicallyRelative (p base : Path) : Option (List Bytes) :=
  if p.isAbsolute != base.isAbsolute then none
  else
    let rest := mismatch p.names base.names
    if rest.1 = [] ∧ rest.2 = [] then some [ascii "."]
    else
      let depth := depthOf rest.2
      if depth = 0 ∧ (rest.1 = [] ∨ rest.1.head? = some []) then some [ascii "."]
      else if 0 ≤ depth then some (List.replicate depth.toNat (ascii "..") ++ rest.1)
      else none

end Path

/-! ## Normal form -/

/-- A component that normalizing keeps. -/
structure PlainName (n : Bytes) : Prop where
  nonempty : n ≠ []
  noSlash : (0x2f : UInt8) ∉ n
  noDot : n ≠ ascii "."
  noDotDot : n ≠ ascii ".."

/-- An absolute path out of plain components, with or without a trailing slash. -/
structure NormalPath (p : Path) (segments : List Bytes) (trailing : Bool) : Prop where
  plain : ∀ n ∈ segments, PlainName n
  nonempty : trailing = true → segments ≠ []
  spelled : p = Path.ofParts true (segments ++ if trailing then [[]] else [])

theorem splitSlash_root (t : Bytes) : splitSlash (0x2f :: t) = [] :: splitSlash t := by
  rw [splitSlash, if_pos rfl]

theorem splitSlash_empty : splitSlash [] = [[]] :=
  rfl

theorem filter_nonempty {ns : List Bytes} (h : ∀ n ∈ ns, PlainName n) :
    ns.filter (fun n => !n.isEmpty) = ns := by
  rw [List.filter_eq_self]
  intro n hn
  rw [Bool.not_eq_true', List.isEmpty_eq_false_iff]
  exact (h n hn).nonempty

theorem joinSlash_trailing : ∀ {ns : List Bytes}, ns ≠ [] →
    (joinSlash (ns ++ [[]])).getLast? = some 0x2f
  | [], h => absurd rfl h
  | [n], _ => by
    rw [List.singleton_append, joinSlash, joinSlash, List.getLast?_concat]
  | n :: m :: rest, _ => by
    have ih := @joinSlash_trailing (m :: rest) (List.cons_ne_nil _ _)
    rw [List.cons_append, List.cons_append, joinSlash, List.getLast?_append, List.getLast?_cons,
      ← List.cons_append, ih]
    rfl

namespace NormalPath

variable {p : Path} {segments : List Bytes} {trailing : Bool} (h : NormalPath p segments trailing)
include h

theorem isAbsolute : p.isAbsolute = true := by
  rw [h.spelled]
  rfl

theorem isEmpty : p.isEmpty = false := by
  rw [h.spelled]
  rfl

theorem names : p.names = segments ++ if trailing then [[]] else [] := by
  have hslash : ∀ n ∈ segments ++ (if trailing then [[]] else []), (0x2f : UInt8) ∉ n := by
    intro n hn
    rcases List.mem_append.mp hn with hn | hn
    · exact (h.plain n hn).noSlash
    · cases trailing
      · cases hn
      · rw [List.mem_singleton.mp hn]
        exact List.not_mem_nil
  rw [h.spelled]
  unfold Path.names Path.ofParts
  dsimp only
  rw [if_pos rfl, List.singleton_append, splitSlash_root, List.filter_cons_of_neg (by simp)]
  cases segments with
  | nil =>
    cases trailing
    · rfl
    · exact absurd rfl (h.nonempty rfl)
  | cons n rest =>
    have hne : n :: rest ++ (if trailing then [[]] else []) ≠ [] := List.cons_ne_nil _ _
    rw [splitSlash_joinSlash hne hslash, List.filter_append, filter_nonempty h.plain]
    cases trailing
    · obtain ⟨last, hlast⟩ := Option.ne_none_iff_exists'.mp
        (mt List.getLast?_eq_none_iff.mp (List.cons_ne_nil n rest))
      have hplain := h.plain last (List.mem_of_getLast? hlast)
      have hjoin : (joinSlash (n :: rest)).getLast? = last.getLast? :=
        joinSlash_getLast hlast hplain.nonempty
      have hend : ¬(joinSlash (n :: rest)).getLast? = some 0x2f := by
        rw [hjoin]
        exact fun hs => hplain.noSlash (List.mem_of_getLast? hs)
      have hcons : (0x2f :: joinSlash (n :: rest)).getLast? = last.getLast? := by
        rw [List.getLast?_cons, hjoin]
        cases hl : last.getLast? with
        | none => exact absurd (List.getLast?_eq_none_iff.mp hl) hplain.nonempty
        | some c => rfl
      rw [if_neg Bool.false_ne_true, List.filter_nil, List.append_nil, hcons, ← hjoin, if_neg]
      simp [hend]
    · have hjoin := joinSlash_trailing (List.cons_ne_nil n rest)
      have hcons : (0x2f :: joinSlash (n :: rest ++ [[]])).getLast? = some 0x2f := by
        rw [List.getLast?_cons, hjoin]
        rfl
      rw [if_pos rfl, hcons, if_pos]
      · simp
      · simp

theorem segments_eq : p.segments = segments := by
  unfold Path.segments
  rw [h.names, List.filter_append, filter_nonempty h.plain]
  cases trailing <;> simp

theorem trailing_eq : p.trailing = trailing := by
  unfold Path.trailing
  rw [h.names]
  cases trailing
  · rw [if_neg Bool.false_ne_true, List.append_nil, beq_eq_false_iff_ne]
    exact fun hl => (h.plain _ (List.mem_of_getLast? hl)).nonempty rfl
  · rw [if_pos rfl, List.getLast?_concat]
    rfl

/-- The recorded spelling is the spelling. -/
theorem generic : p.generic = p.native := by
  unfold Path.generic
  rw [h.isAbsolute, h.names, ← h.spelled]

theorem parentPath : p.parentPath =
    Path.ofParts true (if trailing then segments else segments.dropLast) := by
  unfold Path.parentPath
  rw [h.isAbsolute, h.names]
  cases trailing
  · rw [if_neg Bool.false_ne_true, if_neg Bool.false_ne_true, List.append_nil]
  · rw [if_pos rfl, if_pos rfl, List.dropLast_concat]

theorem parent : NormalPath p.parentPath (if trailing then segments else segments.dropLast)
    false := by
  refine ⟨fun n hn => ?_, fun hf => absurd hf Bool.false_ne_true, ?_⟩
  · cases trailing
    · exact h.plain n (List.mem_of_mem_dropLast hn)
    · exact h.plain n hn
  · rw [h.parentPath, if_neg Bool.false_ne_true, List.append_nil]

end NormalPath

/-! ## Normalizing -/

/-- The components kept so far are plain, latest first. -/
theorem normalStep_plain {kept : List Bytes} {name : Bytes} (hkept : ∀ n ∈ kept, PlainName n)
    (hname : (0x2f : UInt8) ∉ name) : ∀ n ∈ Path.normalStep true kept name, PlainName n := by
  intro n hn
  unfold Path.normalStep at hn
  split at hn
  · exact hkept n hn
  · next hskip =>
    simp only [Bool.or_eq_true, decide_eq_true_eq, not_or] at hskip
    split at hn
    · next hdots =>
      split at hn
      · cases hn
      · next last rest =>
        rw [if_neg (hkept last List.mem_cons_self).noDotDot] at hn
        exact hkept n (List.mem_cons_of_mem last hn)
    · next hdots =>
      rcases List.mem_cons.mp hn with rfl | hn
      · exact ⟨hskip.1, hname, hskip.2, hdots⟩
      · exact hkept n hn

theorem foldl_normalStep_plain : ∀ {names kept : List Bytes}, (∀ n ∈ kept, PlainName n) →
    (∀ n ∈ names, (0x2f : UInt8) ∉ n) →
    ∀ n ∈ names.foldl (Path.normalStep true) kept, PlainName n
  | [], _, hkept, _ => hkept
  | name :: rest, _, hkept, hnames => by
    rw [List.foldl_cons]
    exact foldl_normalStep_plain
      (normalStep_plain hkept (hnames name List.mem_cons_self))
      fun n hn => hnames n (List.mem_cons_of_mem name hn)

/-- `lexically_normal` brings every absolute path into normal form. -/
theorem normalPath_foldl {p : Path} (h : p.isAbsolute = true) : ∃ trailing,
    NormalPath p.lexicallyNormal (p.names.foldl (Path.normalStep true) []).reverse trailing := by
  have hempty : p.isEmpty = false := by
    unfold Path.isAbsolute at h
    unfold Path.isEmpty
    cases hp : p.native with
    | nil =>
      rw [hp] at h
      cases h
    | cons c rest => rfl
  have hplain := @foldl_normalStep_plain p.names [] (fun n hn => absurd hn List.not_mem_nil)
    fun n hn => not_slash_of_mem_names hn
  unfold Path.lexicallyNormal
  rw [if_neg (by rw [hempty]; decide), h]
  dsimp only
  split
  · next hkept =>
    rw [hkept]
    exact ⟨false, fun n hn => absurd hn List.not_mem_nil,
      fun hf => absurd hf Bool.false_ne_true, rfl⟩
  · next top rest hkept =>
    rw [hkept] at hplain
    have hrev : ∀ n ∈ (top :: rest).reverse, PlainName n :=
      fun n hn => hplain n (List.mem_reverse.mp hn)
    rw [hkept]
    split
    · exact ⟨true, hrev, fun _ => by simp, rfl⟩
    · refine ⟨false, hrev, fun hf => absurd hf Bool.false_ne_true, ?_⟩
      rw [if_neg Bool.false_ne_true, List.append_nil]

theorem normalPath_lexicallyNormal {p : Path} (h : p.isAbsolute = true) :
    ∃ segments trailing, NormalPath p.lexicallyNormal segments trailing :=
  ⟨_, normalPath_foldl h⟩

theorem foldl_normalStep_of_plain : ∀ {names : List Bytes} (kept : List Bytes),
    (∀ n ∈ names, PlainName n) →
    names.foldl (Path.normalStep true) kept = names.reverse ++ kept
  | [], _, _ => rfl
  | name :: rest, kept, hnames => by
    have hname := hnames name List.mem_cons_self
    have hstep : Path.normalStep true kept name = name :: kept := by
      unfold Path.normalStep
      rw [if_neg, if_neg hname.noDotDot]
      simp [hname.nonempty, hname.noDot]
    rw [List.foldl_cons, hstep, foldl_normalStep_of_plain _ fun n hn =>
      hnames n (List.mem_cons_of_mem name hn), List.reverse_cons, List.append_assoc,
      List.singleton_append]

namespace NormalPath

variable {p : Path} {segments : List Bytes} {trailing : Bool} (h : NormalPath p segments trailing)
include h

theorem lexicallyNormal : p.lexicallyNormal = p := by
  have hfold : p.names.foldl (Path.normalStep true) [] = segments.reverse := by
    rw [h.names, List.foldl_append, foldl_normalStep_of_plain [] h.plain, List.append_nil]
    cases trailing <;> rfl
  unfold Path.lexicallyNormal
  rw [if_neg (by rw [h.isEmpty]; decide), h.isAbsolute, hfold]
  dsimp only
  split
  · next hnil =>
    rw [List.reverse_eq_nil_iff] at hnil
    cases trailing
    · rw [h.spelled, hnil]
      rfl
    · exact absurd hnil (h.nonempty rfl)
  · next top rest hcons =>
    have htop : PlainName top := h.plain top (List.mem_reverse.mp (hcons ▸ List.mem_cons_self))
    have hlast : segments.getLast? = some top := by
      rw [← List.head?_reverse, hcons]
      rfl
    rw [h.names, List.reverse_reverse]
    cases trailing
    · rw [if_neg Bool.false_ne_true, List.append_nil, hlast, Option.getD_some, if_neg]
      · rw [h.spelled, if_neg Bool.false_ne_true, List.append_nil]
      · simp [htop.nonempty, htop.noDot, htop.noDotDot]
    · rw [if_pos rfl, List.getLast?_concat, Option.getD_some, if_pos]
      · rw [h.spelled, if_pos rfl]
      · simp [htop.noDotDot]

theorem ext {q : Path} (h' : NormalPath q segments trailing) : p = q :=
  h.spelled.trans h'.spelled.symm

omit h in
theorem eq_ofParts (h : NormalPath p segments false) : p = Path.ofParts true segments := by
  rw [h.spelled, if_neg Bool.false_ne_true, List.append_nil]

end NormalPath

/-! ## Joining -/

theorem joinSlash_concat : ∀ {ns : List Bytes} (n : Bytes), ns ≠ [] →
    joinSlash (ns ++ [n]) = joinSlash ns ++ 0x2f :: n
  | [], _, h => absurd rfl h
  | [m], n, _ => rfl
  | m :: k :: rest, n, _ => by
    have ih := @joinSlash_concat (k :: rest) n (List.cons_ne_nil _ _)
    rw [List.cons_append, List.cons_append, joinSlash, ← List.cons_append, ih, joinSlash,
      List.append_assoc, List.cons_append]

theorem not_isAbsolute_of_plain {n : Bytes} (h : PlainName n) : Path.isAbsolute ⟨n⟩ = false := by
  unfold Path.isAbsolute
  rw [beq_eq_false_iff_ne]
  exact fun hn => h.noSlash (List.mem_of_mem_head? hn)

theorem NormalPath.join {p : Path} {segments : List Bytes} {trailing : Bool} {n : Bytes}
    (h : NormalPath p segments trailing) (hn : PlainName n) :
    NormalPath (p.join ⟨n⟩) (segments ++ [n]) false := by
  refine ⟨fun m hm => ?_, fun hf => absurd hf Bool.false_ne_true, ?_⟩
  · rcases List.mem_append.mp hm with hm | hm
    · exact h.plain m hm
    · rw [List.mem_singleton.mp hm]
      exact hn
  · have hnative : p.native = 0x2f :: joinSlash (segments ++ if trailing then [[]] else []) := by
      rw [h.spelled]
      rfl
    unfold Path.join
    rw [not_isAbsolute_of_plain hn, if_neg Bool.false_ne_true, if_neg Bool.false_ne_true,
      List.append_nil, h.isEmpty, Bool.false_or]
    have hends : (p.native.getLast? == some 0x2f) = (trailing || segments.isEmpty) := by
      rw [hnative]
      cases segments with
      | nil =>
        cases trailing
        · rfl
        · exact absurd rfl (h.nonempty rfl)
      | cons s rest =>
        cases trailing
        · obtain ⟨last, hlast⟩ := Option.ne_none_iff_exists'.mp
            (mt List.getLast?_eq_none_iff.mp (List.cons_ne_nil s rest))
          have hplain := h.plain last (List.mem_of_getLast? hlast)
          rw [if_neg Bool.false_ne_true, List.append_nil, List.getLast?_cons,
            joinSlash_getLast hlast hplain.nonempty, Bool.false_or, List.isEmpty_cons,
            beq_eq_false_iff_ne]
          cases hl : last.getLast? with
          | none => exact absurd (List.getLast?_eq_none_iff.mp hl) hplain.nonempty
          | some c =>
            rw [Option.getD_some]
            exact fun hc => hplain.noSlash (Option.some.inj hc ▸ List.mem_of_getLast? hl)
        · rw [if_pos rfl, List.getLast?_cons, joinSlash_trailing (List.cons_ne_nil s rest)]
          rfl
    rw [hends, hnative]
    cases segments with
    | nil =>
      cases trailing
      · rfl
      · exact absurd rfl (h.nonempty rfl)
    | cons s rest =>
      have hne := List.cons_ne_nil s rest
      cases trailing
      · rw [if_neg (by simp), if_neg Bool.false_ne_true, List.append_nil]
        unfold Path.ofParts
        rw [if_pos rfl, joinSlash_concat n hne]
        rfl
      · rw [if_pos (by simp), if_pos rfl]
        unfold Path.ofParts
        rw [if_pos rfl, joinSlash_concat n hne, joinSlash_concat [] hne]
        simp

/-- A path in normal form by its own components. -/
def Path.IsNormal (p : Path) : Prop :=
  NormalPath p p.segments p.trailing

theorem NormalPath.isNormal {p : Path} {segments : List Bytes} {trailing : Bool}
    (h : NormalPath p segments trailing) : p.IsNormal := by
  unfold Path.IsNormal
  rwa [h.segments_eq, h.trailing_eq]

theorem isAbsolute_root : Path.isAbsolute ⟨ascii "/"⟩ = true := by
  decide

theorem isNormal_root : Path.IsNormal ⟨ascii "/"⟩ := by
  have h : NormalPath ⟨ascii "/"⟩ [] false :=
    ⟨List.forall_mem_nil _, fun h => absurd h Bool.false_ne_true, rfl⟩
  exact h.isNormal

/-! ## Relative paths -/

/-- A path below a base goes on with plain components only. -/
theorem mismatch_below {base rest t t' : List Bytes} (ht' : ∀ n ∈ t', n = []) :
    ∃ a b, Path.mismatch (base ++ rest ++ t) (base ++ t') = (a, b) ∧
      (∀ n ∈ a, n ∈ rest ++ t) ∧ ∀ n ∈ b, n = [] := by
  induction base with
  | nil =>
    rw [List.nil_append, List.nil_append]
    generalize rest ++ t = xs
    induction xs generalizing t' with
    | nil => exact ⟨[], t', by cases t' <;> rfl, fun n hn => hn, ht'⟩
    | cons x xs ih =>
      cases t' with
      | nil => exact ⟨x :: xs, [], rfl, fun n hn => hn, ht'⟩
      | cons y ys =>
        unfold Path.mismatch
        split
        · obtain ⟨a, b, hab, ha, hb⟩ := ih fun n hn => ht' n (List.mem_cons_of_mem y hn)
          exact ⟨a, b, hab, fun n hn => List.mem_cons_of_mem x (ha n hn), hb⟩
        · exact ⟨x :: xs, y :: ys, rfl, fun n hn => hn, ht'⟩
  | cons n base ih =>
    obtain ⟨a, b, hab, ha, hb⟩ := ih
    refine ⟨a, b, ?_, ha, hb⟩
    rw [List.cons_append, List.cons_append, List.cons_append, Path.mismatch, if_pos rfl, hab]

theorem depthOf_empty : ∀ {ns : List Bytes}, (∀ n ∈ ns, n = []) → Path.depthOf ns = 0
  | [], _ => rfl
  | n :: rest, h => by
    have hn := h n List.mem_cons_self
    have ih := depthOf_empty fun m hm => h m (List.mem_cons_of_mem n hm)
    subst hn
    rw [Path.depthOf, if_neg (by decide), if_pos (by decide), ih]

theorem depthOf_plain {t : List Bytes} (ht : ∀ n ∈ t, n = []) : ∀ {ns : List Bytes},
    (∀ n ∈ ns, PlainName n) → Path.depthOf (ns ++ t) = ns.length
  | [], _ => depthOf_empty ht
  | n :: rest, h => by
    have hn := h n List.mem_cons_self
    have ih := depthOf_plain ht fun m hm => h m (List.mem_cons_of_mem n hm)
    rw [List.cons_append, Path.depthOf, if_neg hn.noDotDot, if_neg, ih, List.length_cons]
    · rfl
    · simp [hn.nonempty, hn.noDot]

/-- What is left of a base that the path does not lead through goes down. -/
theorem mismatch_aside {t t' : List Bytes} (ht : ∀ n ∈ t, n = []) (ht' : ∀ n ∈ t', n = []) :
    ∀ {base segments : List Bytes}, (∀ n ∈ base, PlainName n) → ¬base <+: segments →
    0 < Path.depthOf (Path.mismatch (segments ++ t) (base ++ t')).2
  | [], segments, _, h => absurd (List.nil_prefix) h
  | n :: base, segments, hbase, h => by
    have hn := hbase n List.mem_cons_self
    have hdepth : 0 < Path.depthOf (n :: base ++ t') := by
      rw [depthOf_plain ht' hbase, List.length_cons]
      omega
    have hhead : ∀ {m : Bytes} {rest : List Bytes}, m ≠ n →
        Path.mismatch (m :: rest) (n :: base ++ t') = (m :: rest, n :: base ++ t') := by
      intro m rest hne
      rw [List.cons_append, Path.mismatch, if_neg hne]
    cases segments with
    | nil =>
      cases t with
      | nil => exact hdepth
      | cons m rest =>
        rw [List.nil_append, hhead]
        · exact hdepth
        · rw [ht m List.mem_cons_self]
          exact Ne.symm hn.nonempty
    | cons m segments =>
      by_cases hmn : m = n
      · subst hmn
        rw [List.cons_append, List.cons_append, Path.mismatch, if_pos rfl]
        refine mismatch_aside ht ht' (fun k hk => hbase k (List.mem_cons_of_mem m hk)) ?_
        exact fun hp => h (List.cons_prefix_cons.mpr ⟨rfl, hp⟩)
      · rw [List.cons_append, hhead hmn]
        exact hdepth

/-- The end of a normal path behind its plain components. -/
theorem empty_of_mem_end (trailing : Bool) :
    ∀ n ∈ (if trailing then [[]] else [] : List Bytes), n = [] := by
  intro n hn
  cases trailing
  · cases hn
  · exact List.mem_singleton.mp hn

/-- The way from a directory to what is inside of it does not go up. -/
theorem lexicallyRelative_below {p base : Path} {segments below : List Bytes}
    {trailing trailing' : Bool} (hp : NormalPath p (segments ++ below) trailing)
    (hbase : NormalPath base segments trailing') :
    ∃ parts, p.lexicallyRelative base = some parts ∧ ascii ".." ∉ parts := by
  obtain ⟨a, b, hab, ha, hb⟩ := @mismatch_below segments below
    (if trailing then [[]] else []) _ (empty_of_mem_end trailing')
  have hno : ascii ".." ∉ a := by
    intro hmem
    rcases List.mem_append.mp (ha _ hmem) with hmem | hmem
    · exact (hp.plain _ (List.mem_append_right segments hmem)).noDotDot rfl
    · exact absurd (empty_of_mem_end trailing _ hmem) (by decide)
  unfold Path.lexicallyRelative
  rw [hp.isAbsolute, hbase.isAbsolute, hp.names, hbase.names, hab]
  rw [if_neg (by decide)]
  dsimp only
  rw [depthOf_empty hb]
  split
  · exact ⟨_, rfl, by decide⟩
  · split
    · exact ⟨_, rfl, by decide⟩
    · exact ⟨_, rfl, by simpa using hno⟩

/-- The way to what is not inside of a directory goes up. -/
theorem lexicallyRelative_aside {p base : Path} {segments base' : List Bytes}
    {trailing trailing' : Bool} (hp : NormalPath p segments trailing)
    (hbase : NormalPath base base' trailing') (h : ¬base' <+: segments) :
    ∃ parts, p.lexicallyRelative base = some parts ∧ ascii ".." ∈ parts := by
  have hdepth := mismatch_aside (empty_of_mem_end trailing) (empty_of_mem_end trailing')
    hbase.plain h
  unfold Path.lexicallyRelative
  rw [hp.isAbsolute, hbase.isAbsolute, hp.names, hbase.names, if_neg (by decide)]
  dsimp only
  rw [if_neg, if_neg, if_pos (by omega)]
  · refine ⟨_, rfl, List.mem_append_left _ (List.mem_replicate.mpr ⟨?_, rfl⟩)⟩
    omega
  · rintro ⟨hzero, -⟩
    omega
  · rintro ⟨-, hnil⟩
    rw [hnil] at hdepth
    exact absurd hdepth (by decide)

end Usk
