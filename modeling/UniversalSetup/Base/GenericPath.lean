import UniversalSetup.Base.NormalPath

/-!
# The recorded spelling of a path

`generic_string` spells a path by its components. So two paths with the same spelling have the same
components, and are the same to everything that goes through components only.
-/

namespace Usk

variable {p q : Path}

namespace Path

/-- `operator==`, which compares components. -/
def same (p q : Path) : Bool :=
  p.isAbsolute == q.isAbsolute && p.names == q.names

theorem names_root (t : Bytes) : names ⟨0x2f :: t⟩ = names ⟨t⟩ := by
  have hnamed : (splitSlash (0x2f :: t)).filter (fun n => !n.isEmpty) =
      (splitSlash t).filter fun n => !n.isEmpty := by
    rw [splitSlash_root]
    rfl
  cases t with
  | nil => rfl
  | cons c rest =>
    simp only [names, hnamed, List.getLast?_cons_cons]

/-- The components of a path: names that are not empty, and an empty one for a slash at the end. -/
theorem names_shape (p : Path) : ∃ named : List Bytes, (∀ n ∈ named, n ≠ [] ∧ (0x2f : UInt8) ∉ n) ∧
    (p.names = named ∨ named ≠ [] ∧ p.names = named ++ [[]]) := by
  refine ⟨(splitSlash p.native).filter fun n => !n.isEmpty, fun n hn => ?_, ?_⟩
  · obtain ⟨hmem, hne⟩ := List.mem_filter.mp hn
    exact ⟨by simpa using hne, not_slash_of_mem_splitSlash hmem⟩
  · simp only [names]
    split
    · next h =>
      rw [Bool.and_eq_true] at h
      exact .inr ⟨by simpa using h.1, rfl⟩
    · exact .inl rfl

theorem names_joinSlash_names (p : Path) : names ⟨joinSlash p.names⟩ = p.names := by
  obtain ⟨named, hnamed, hnames | ⟨hne, hnames⟩⟩ := p.names_shape
  · rw [hnames]
    cases named with
    | nil => rfl
    | cons n ns =>
      exact names_joinSlash (List.cons_ne_nil n ns) (fun m hm => (hnamed m hm).2)
        fun m hm => (hnamed m hm).1
  · rw [hnames]
    have hsplit : splitSlash (joinSlash (named ++ [[]])) = named ++ [[]] := by
      refine splitSlash_joinSlash (by simp) fun m hm => ?_
      rcases List.mem_append.mp hm with hm | hm
      · exact (hnamed m hm).2
      · rw [List.mem_singleton.mp hm]
        exact List.not_mem_nil
    have hfilter : (named ++ [[]]).filter (fun n => !n.isEmpty) = named := by
      rw [List.filter_append, List.filter_eq_self.mpr fun m hm => by simpa using (hnamed m hm).1]
      exact List.append_nil named
    have hlast : (joinSlash (named ++ [[]])).getLast? = some 0x2f := by
      rw [joinSlash_concat [] hne, List.getLast?_append]
      rfl
    simp only [names, hsplit, hfilter, hlast]
    rw [if_pos]
    simpa using hne

theorem names_generic (p : Path) : names ⟨p.generic⟩ = p.names := by
  unfold generic ofParts
  split
  · exact (names_root _).trans p.names_joinSlash_names
  · exact p.names_joinSlash_names

theorem isAbsolute_generic (p : Path) : isAbsolute ⟨p.generic⟩ = p.isAbsolute := by
  unfold generic ofParts
  cases habsolute : p.isAbsolute with
  | true => rfl
  | false =>
    obtain ⟨named, hnamed, hnames⟩ := p.names_shape
    cases named with
    | nil =>
      rcases hnames with hnames | ⟨hne, -⟩
      · rw [hnames]
        rfl
      · exact absurd rfl hne
    | cons n ns =>
      have hhead : (joinSlash p.names).head? = n.head? := by
        rcases hnames with hnames | ⟨-, hnames⟩
        · rw [hnames, joinSlash_head (hnamed n List.mem_cons_self).1]
        · rw [hnames, List.cons_append, joinSlash_head (hnamed n List.mem_cons_self).1]
      show ((joinSlash p.names).head? == some 0x2f) = false
      rw [hhead, beq_eq_false_iff_ne]
      exact fun hslash => (hnamed n List.mem_cons_self).2 (List.mem_of_mem_head? hslash)

/-- The spelling determines the components. -/
theorem of_generic_eq (h : p.generic = q.generic) :
    p.isAbsolute = q.isAbsolute ∧ p.names = q.names := by
  constructor
  · rw [← p.isAbsolute_generic, ← q.isAbsolute_generic, h]
  · rw [← p.names_generic, ← q.names_generic, h]

/-! ## Normalizing -/

/-- A name that stands for a component. -/
def Named (n : Bytes) : Prop :=
  n ≠ [] ∧ (0x2f : UInt8) ∉ n

instance (n : Bytes) : Decidable (Named n) :=
  inferInstanceAs (Decidable (_ ∧ _))

theorem named_normalStep {root : Bool} {kept : List Bytes} {name : Bytes}
    (hkept : ∀ n ∈ kept, Named n) (hname : (0x2f : UInt8) ∉ name) :
    ∀ n ∈ normalStep root kept name, Named n := by
  unfold normalStep
  split
  · exact hkept
  · next hplain =>
    have hnamed : Named name := ⟨fun hnil => hplain (by simp [hnil]), hname⟩
    split
    · split
      · split
        · exact List.forall_mem_nil _
        · exact List.forall_mem_singleton.mpr hnamed
      · split
        · exact List.forall_mem_cons.mpr ⟨hnamed, hkept⟩
        · exact fun n hn => hkept n (List.mem_cons_of_mem _ hn)
    · exact List.forall_mem_cons.mpr ⟨hnamed, hkept⟩

theorem named_foldl_normalStep {root : Bool} : ∀ {names kept : List Bytes},
    (∀ n ∈ kept, Named n) → (∀ n ∈ names, (0x2f : UInt8) ∉ n) →
    ∀ n ∈ names.foldl (normalStep root) kept, Named n
  | [], _, hkept, _ => hkept
  | name :: rest, kept, hkept, hnames => by
    rw [List.foldl_cons]
    exact named_foldl_normalStep (named_normalStep hkept (hnames name List.mem_cons_self))
      fun n hn => hnames n (List.mem_cons_of_mem name hn)

/-- What normalizing makes of a path: its root, and a name at the front unless it is the root
directory. -/
theorem lexicallyNormal_shape (h : p.isEmpty = false) : ∃ names,
    p.lexicallyNormal = ofParts p.isAbsolute names ∧
      (p.isAbsolute = true ∨ ∃ n ns, names = n :: ns ∧ Named n) := by
  have hkept : ∀ n ∈ p.names.foldl (normalStep p.isAbsolute) [], Named n :=
    named_foldl_normalStep (List.forall_mem_nil _) fun n hn => not_slash_of_mem_names hn
  have hfront : ∀ {kept ends : List Bytes}, kept ≠ [] → (∀ n ∈ kept, Named n) →
      ∃ n ns, kept.reverse ++ ends = n :: ns ∧ Named n := by
    intro kept ends hne hall
    obtain ⟨n, ns, heq⟩ := List.exists_cons_of_ne_nil (mt List.reverse_eq_nil_iff.mp hne)
    refine ⟨n, ns ++ ends, by rw [heq, List.cons_append], hall n ?_⟩
    rw [← List.mem_reverse, heq]
    exact List.mem_cons_self
  unfold lexicallyNormal
  rw [if_neg (by simp [h])]
  dsimp only
  split
  · split
    · next habsolute => exact ⟨[], by rw [habsolute], .inl habsolute⟩
    · next hrelative =>
      have hdot : Named (ascii ".") := by
        unfold Named
        decide
      exact ⟨[ascii "."], by rw [Bool.not_eq_true _ |>.mp hrelative], .inr ⟨_, [], rfl, hdot⟩⟩
  · next top rest heq =>
    rw [heq] at hkept ⊢
    split
    · exact ⟨_, rfl, .inr (hfront (List.cons_ne_nil _ _) hkept)⟩
    · refine ⟨_, rfl, .inr ?_⟩
      rw [← List.append_nil (List.reverse _)]
      exact hfront (List.cons_ne_nil _ _) hkept

theorem head_joinSlash_named {n : Bytes} {ns : List Bytes} (h : Named n) :
    ∃ c, (joinSlash (n :: ns)).head? = some c ∧ c ≠ 0x2f := by
  obtain ⟨c, rest, rfl⟩ := List.exists_cons_of_ne_nil h.1
  refine ⟨c, joinSlash_head h.1, ?_⟩
  rintro rfl
  exact h.2 List.mem_cons_self

theorem isAbsolute_lexicallyNormal (p : Path) : p.lexicallyNormal.isAbsolute = p.isAbsolute := by
  cases hempty : p.isEmpty with
  | true =>
    unfold lexicallyNormal
    rw [if_pos hempty]
  | false =>
    obtain ⟨names, heq, habsolute | ⟨n, ns, rfl, hnamed⟩⟩ := lexicallyNormal_shape hempty
    · rw [heq, habsolute]
      rfl
    · rw [heq]
      cases habsolute : p.isAbsolute with
      | true => rfl
      | false =>
        obtain ⟨c, hhead, hslash⟩ := @head_joinSlash_named n ns hnamed
        show ((joinSlash (n :: ns)).head? == some 0x2f) = false
        rw [hhead, beq_eq_false_iff_ne]
        exact fun h => hslash (Option.some.inj h)

theorem isEmpty_lexicallyNormal (p : Path) : p.lexicallyNormal.isEmpty = p.isEmpty := by
  cases hempty : p.isEmpty with
  | true =>
    unfold lexicallyNormal
    rw [if_pos hempty]
    exact hempty
  | false =>
    obtain ⟨names, heq, hshape⟩ := lexicallyNormal_shape hempty
    rw [heq]
    cases habsolute : p.isAbsolute with
    | true => rfl
    | false =>
      rw [habsolute] at hshape
      obtain hfalse | ⟨n, ns, rfl, hnamed⟩ := hshape
      · cases hfalse
      · obtain ⟨c, hhead, -⟩ := @head_joinSlash_named n ns hnamed
        show (joinSlash (n :: ns)).isEmpty = false
        cases htext : joinSlash (n :: ns) with
        | nil =>
          rw [htext] at hhead
          cases hhead
        | cons d rest => rfl

/-- Only the empty path has neither a root nor components. -/
theorem isEmpty_eq (p : Path) : p.isEmpty = (!p.isAbsolute && p.names.isEmpty) := by
  cases hempty : p.isEmpty with
  | true =>
    obtain ⟨native⟩ := p
    cases native with
    | nil => rfl
    | cons c rest => cases hempty
  | false =>
    cases habsolute : p.isAbsolute with
    | true => rfl
    | false =>
      have hnames := names_ne_nil_of_relative hempty habsolute
      simpa using hnames

/-- Two paths that normalize to the same spelling are the same to every check that looks at their
root, at whether they are empty and at the components of their normal form. -/
theorem of_normal_generic_eq (h : p.lexicallyNormal.generic = q.lexicallyNormal.generic) :
    p.isEmpty = q.isEmpty ∧ p.isAbsolute = q.isAbsolute ∧
      p.lexicallyNormal.names = q.lexicallyNormal.names := by
  obtain ⟨habsolute, hnames⟩ := of_generic_eq h
  refine ⟨?_, ?_, hnames⟩
  · rw [← p.isEmpty_lexicallyNormal, ← q.isEmpty_lexicallyNormal, isEmpty_eq, isEmpty_eq, habsolute,
      hnames]
  · rwa [isAbsolute_lexicallyNormal, isAbsolute_lexicallyNormal] at habsolute

/-! ## Paths below a path -/

theorem splitSlash_concat (a t : Bytes) : splitSlash (a ++ 0x2f :: t) = splitSlash a ++
    splitSlash t := by
  induction a with
  | nil => exact splitSlash_root t
  | cons c rest ih =>
    obtain ⟨segment, segments, hsplit⟩ := List.exists_cons_of_ne_nil (splitSlash_ne_nil rest)
    rw [List.cons_append, splitSlash, splitSlash, ih]
    split
    · rfl
    · rw [hsplit]
      rfl

theorem segments_eq_filter (p : Path) :
    p.segments = (splitSlash p.native).filter fun n => !n.isEmpty := by
  unfold segments names
  dsimp only
  split
  · rw [List.filter_append, List.filter_filter]
    simp
  · rw [List.filter_filter]
    simp

/-- The components of a path below another one. -/
theorem names_join (p : Path) (hq : q.isEmpty = false) (ha : q.isAbsolute = false) :
    (p.join q).names = p.segments ++ q.names := by
  have hne : q.native ≠ [] := by
    intro h
    rw [isEmpty, h] at hq
    cases hq
  have hfilter : (splitSlash (p.join q).native).filter (fun n => !n.isEmpty) =
      p.segments ++ (splitSlash q.native).filter fun n => !n.isEmpty := by
    unfold join
    rw [ha, if_neg Bool.false_ne_true, segments_eq_filter]
    split
    · next hend =>
      rw [Bool.or_eq_true, beq_iff_eq] at hend
      rcases hend with hend | hend
      · rw [List.isEmpty_iff.mp hend]
        rfl
      · obtain ⟨front, hfront⟩ := List.getLast?_eq_some_iff.mp hend
        show (splitSlash (p.native ++ q.native)).filter _ = _
        rw [hfront, List.append_assoc, List.singleton_append, splitSlash_concat, splitSlash_concat,
          List.filter_append, List.filter_append, splitSlash_empty]
        simp
    · show (splitSlash (p.native ++ 0x2f :: q.native)).filter _ = _
      rw [splitSlash_concat, List.filter_append]
  have hlast : (p.join q).native.getLast? = q.native.getLast? := by
    unfold join
    rw [ha, if_neg Bool.false_ne_true]
    split
    · show (p.native ++ q.native).getLast? = _
      rw [List.getLast?_append_of_ne_nil _ hne]
    · show (p.native ++ 0x2f :: q.native).getLast? = _
      rw [List.getLast?_append_of_ne_nil _ (List.cons_ne_nil _ _), List.getLast?_cons]
      cases hl : q.native.getLast? with
      | none => exact absurd (List.getLast?_eq_none_iff.mp hl) hne
      | some c => rfl
  have hnames := names_ne_nil_of_relative hq ha
  unfold names at hnames ⊢
  dsimp only at hnames ⊢
  rw [hfilter, hlast]
  generalize (splitSlash q.native).filter (fun n => !n.isEmpty) = named at hnames ⊢
  cases named with
  | nil => exact absurd (by simp) hnames
  | cons n rest =>
    have hfull : (p.segments ++ n :: rest).isEmpty = false := by simp
    rw [hfull, List.isEmpty_cons]
    split
    · rw [List.append_assoc]
    · rfl

/-- The normal form of an absolute path out of plain names keeps the names. -/
theorem normalPath_of_plain (h : p.isAbsolute = true) (hplain : ∀ n ∈ p.names, PlainName n) :
    NormalPath p.lexicallyNormal p.names false := by
  have hempty : p.isEmpty = false := by
    cases hp : p.isEmpty with
    | false => rfl
    | true =>
      rw [isAbsolute, List.isEmpty_iff.mp hp] at h
      cases h
  refine ⟨hplain, fun hf => absurd hf Bool.false_ne_true, ?_⟩
  unfold lexicallyNormal
  rw [if_neg (by rw [hempty]; decide), h, foldl_normalStep_of_plain [] hplain, List.append_nil,
    if_neg Bool.false_ne_true, List.append_nil]
  dsimp only
  split
  · next hnil =>
    rw [List.reverse_eq_nil_iff.mp hnil]
    rfl
  · next top rest hcons =>
    have htop : PlainName top := hplain top (List.mem_reverse.mp (hcons ▸ List.mem_cons_self))
    have hlast : p.names.getLast? = some top := by
      rw [← List.head?_reverse, hcons]
      rfl
    rw [List.reverse_reverse, hlast, Option.getD_some, if_neg]
    simp [htop.nonempty, htop.noDot, htop.noDotDot]

theorem isAbsolute_join (hp : p.isAbsolute = true) (hq : q.isAbsolute = false) :
    (p.join q).isAbsolute = true := by
  obtain ⟨rest, hrest⟩ : ∃ rest, p.native = 0x2f :: rest :=
    List.head?_eq_some_iff.mp (eq_of_beq hp)
  unfold join
  rw [hq, if_neg Bool.false_ne_true]
  unfold isAbsolute
  split
  · show ((p.native ++ q.native).head? == some 0x2f) = true
    rw [hrest]
    rfl
  · show ((p.native ++ 0x2f :: q.native).head? == some 0x2f) = true
    rw [hrest]
    rfl

/-- The normal form of a plain relative path below a normal one. -/
theorem normalPath_join {segments : List Bytes} {trailing : Bool}
    (h : NormalPath p segments trailing) (hq : q.isEmpty = false) (ha : q.isAbsolute = false)
    (hplain : ∀ n ∈ q.names, PlainName n) :
    NormalPath (p.join q).lexicallyNormal (segments ++ q.names) false := by
  have hnames := names_join p hq ha
  rw [h.segments_eq] at hnames
  rw [← hnames]
  refine normalPath_of_plain ?_ ?_
  · exact isAbsolute_join (by rw [h.spelled]; rfl) ha
  · intro n hn
    rw [hnames] at hn
    rcases List.mem_append.mp hn with hn | hn
    · exact h.plain n hn
    · exact hplain n hn

/-- Empty components do not count. -/
theorem foldl_normalStep_filter {root : Bool} : ∀ (names kept : List Bytes),
    (names.filter fun n => !n.isEmpty).foldl (normalStep root) kept =
      names.foldl (normalStep root) kept
  | [], _ => rfl
  | [] :: rest, kept => foldl_normalStep_filter rest kept
  | (c :: name) :: rest, kept => foldl_normalStep_filter rest (normalStep root kept (c :: name))

/-- The components of the normal form of a plain path below one of any spelling. -/
theorem segments_normal_join (hp : p.isAbsolute = true) (hq : q.isEmpty = false)
    (ha : q.isAbsolute = false) (hplain : ∀ n ∈ q.segments, PlainName n) :
    (p.join q).lexicallyNormal.segments = p.lexicallyNormal.segments ++ q.segments := by
  obtain ⟨_, hnormal⟩ := normalPath_foldl hp
  obtain ⟨_, hjoin⟩ := normalPath_foldl (isAbsolute_join hp ha)
  rw [hnormal.segments_eq, hjoin.segments_eq, names_join p hq ha, List.foldl_append, segments,
    foldl_normalStep_filter, ← foldl_normalStep_filter q.names]
  show List.reverse (q.segments.foldl (normalStep true) _) = _
  rw [foldl_normalStep_of_plain _ hplain, List.reverse_append, List.reverse_reverse]

end Path

end Usk
