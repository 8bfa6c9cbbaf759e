import UniversalSetup.Archive.Zip
import UniversalSetup.Base.NormalPath

/-!
# Entry names

`normalize_path` reads an entry name byte by byte and decides about a separator at the end of the
name only when it gets there. What it accepts is said without the loop by `EntryName`: a name of
printable ASCII that splits at its separators into segments a file system takes as they are.
-/

namespace Usk.Archive

open Json (Result demand demand_eq_ok bind_eq_ok)

variable {c : UInt8} {segment : Bytes} {trailing : Bool} {out : List Bytes}

/-! ## Names that are taken -/

/-- The part of a segment before its first dot, folded. -/
def stem (segment : Bytes) : Bytes :=
  lowercaseAscii (segment.takeWhile (· != 0x2e))

/-- A segment that Windows takes for a device. -/
def DeviceStem (segment : Bytes) : Prop :=
  stem segment ∈ ["con", "prn", "aux", "nul", "clock$"].map ascii ∨
    ∃ d, 1 ≤ d ∧ d ≤ 9 ∧ (stem segment = ascii "com" ++ [digitByte d] ∨
      stem segment = ascii "lpt" ++ [digitByte d])

/-- A segment that names one thing on every file system. -/
structure PlainSegment (segment : Bytes) : Prop where
  nonempty : segment ≠ []
  dot : segment ≠ ascii "."
  dots : segment ≠ ascii ".."
  endDot : segment.getLast? ≠ some 0x2e
  endSpace : segment.getLast? ≠ some 0x20
  device : ¬DeviceStem segment

/-- A name with these segments. A single separator may end it. -/
structure EntryName (raw : Bytes) (maxDepth : Nat) (segments : List Bytes) : Prop where
  length : 1 ≤ raw.length ∧ raw.length ≤ maxNameBytes
  printable : ∀ c ∈ raw, 0x20 ≤ c ∧ c < 0x7f
  rooted : raw.head?.any isSeparator = false
  drive : ∀ letter rest, raw = letter :: 0x3a :: rest → isAlpha letter = false
  colon : (0x3a : UInt8) ∉ raw
  split : raw.splitOnP isSeparator = segments ∨ raw.splitOnP isSeparator = segments ++ [[]]
  depth : 1 ≤ segments.length ∧ segments.length ≤ maxDepth
  plain : ∀ s ∈ segments, PlainSegment s

/-! ## Segments -/

theorem deviceDigit_iff : (0x31 ≤ c && c ≤ 0x39) = true ↔ ∃ d, 1 ≤ d ∧ d ≤ 9 ∧ c = digitByte d := by
  simp only [Bool.and_eq_true, decide_eq_true_eq, UInt8.le_iff_toNat_le]
  constructor
  · rintro ⟨hlow, hhigh⟩
    have hlow : 0x31 ≤ c.toNat := hlow
    have hhigh : c.toNat ≤ 0x39 := hhigh
    refine ⟨c.toNat - 0x30, by omega, by omega, UInt8.toNat_inj.mp ?_⟩
    rw [digitByte_toNat (by omega)]
    omega
  · rintro ⟨d, hlow, hhigh, rfl⟩
    rw [digitByte_toNat (by omega)]
    exact ⟨Nat.add_le_add_left hlow 0x30, Nat.add_le_add_left hhigh 0x30⟩

/-- The names with a number: three letters and a digit. -/
theorem numbered_iff {base leading : Bytes} (hleading : leading.length = 3) :
    (base.length = 4 ∧ leading <+: base ∧
      (base.getLast?.any fun c => 0x31 ≤ c && c ≤ 0x39) = true) ↔
      ∃ d, 1 ≤ d ∧ d ≤ 9 ∧ base = leading ++ [digitByte d] := by
  constructor
  · rintro ⟨hlength, ⟨rest, rfl⟩, hlast⟩
    rw [List.length_append, hleading] at hlength
    obtain ⟨c, rfl⟩ := List.length_eq_one_iff.mp (by omega : rest.length = 1)
    rw [List.getLast?_concat, Option.any_some, deviceDigit_iff] at hlast
    obtain ⟨d, hlow, hhigh, rfl⟩ := hlast
    exact ⟨d, hlow, hhigh, rfl⟩
  · rintro ⟨d, hlow, hhigh, rfl⟩
    refine ⟨by simp [hleading], List.prefix_append _ _, ?_⟩
    rw [List.getLast?_concat, Option.any_some, deviceDigit_iff]
    exact ⟨d, hlow, hhigh, rfl⟩

theorem windowsReservedName_iff : windowsReservedName segment = true ↔ DeviceStem segment := by
  have hcom := @numbered_iff (stem segment) (ascii "com") rfl
  have hlpt := @numbered_iff (stem segment) (ascii "lpt") rfl
  show (stem segment == ascii "con" || stem segment == ascii "prn" || stem segment == ascii "aux" ||
    stem segment == ascii "nul" || stem segment == ascii "clock$" || ((stem segment).length == 4 &&
      ((ascii "com").isPrefixOf (stem segment) || (ascii "lpt").isPrefixOf (stem segment)) &&
      ((stem segment).getLast?.any fun c => 0x31 ≤ c && c ≤ 0x39))) = true ↔ _
  simp only [DeviceStem, List.map_cons, List.map_nil, List.mem_cons, List.not_mem_nil, or_false,
    Bool.or_eq_true, Bool.and_eq_true, beq_iff_eq, List.isPrefixOf_iff_prefix, and_or_left,
    or_and_right, exists_or, ← hcom, ← hlpt, and_assoc, or_assoc]

theorem checkSegment_eq_ok {u : Unit} (hne : segment ≠ []) :
    checkSegment segment = .ok u ↔ PlainSegment segment := by
  have hdevice : windowsReservedName segment = false ↔ ¬DeviceStem segment := by
    rw [← windowsReservedName_iff, Bool.not_eq_true]
  simp only [checkSegment, bind_eq_ok, demand_eq_ok, exists_const, Bool.not_eq_true',
    Bool.or_eq_false_iff, beq_eq_false_iff_ne, hdevice]
  constructor
  · rintro ⟨⟨hdot, hdots⟩, ⟨hend, hspace⟩, hdevice⟩
    exact ⟨hne, hdot, hdots, hend, hspace, hdevice⟩
  · intro h
    exact ⟨⟨h.dot, h.dots⟩, ⟨h.endDot, h.endSpace⟩, h.device⟩

/-! ## The loop -/

/-- The segments of what is left, the first of which has begun with `segment`. -/
def partsFrom (segment rest : Bytes) : List Bytes :=
  (rest.splitOnP isSeparator).modifyHead (segment ++ ·)

theorem partsFrom_nil (segment : Bytes) : partsFrom segment [] = [segment] := by
  rw [partsFrom, List.splitOnP_nil, List.modifyHead_cons, List.append_nil]

theorem partsFrom_start (rest : Bytes) : partsFrom [] rest = rest.splitOnP isSeparator :=
  congrFun List.modifyHead_id _

theorem partsFrom_separator (hc : isSeparator c = true) (segment rest : Bytes) :
    partsFrom segment (c :: rest) = segment :: partsFrom [] rest := by
  rw [partsFrom, List.splitOnP_cons_eq_if_modifyHead, if_pos hc, List.modifyHead_cons,
    List.append_nil, partsFrom_start]

theorem partsFrom_other (hc : isSeparator c = false) (segment rest : Bytes) :
    partsFrom segment (c :: rest) = partsFrom (segment ++ [c]) rest := by
  rw [partsFrom, List.splitOnP_cons_eq_if_modifyHead, if_neg (by rw [hc]; decide),
    List.modifyHead_modifyHead, partsFrom]
  congr 1
  funext part
  simp

theorem partsFrom_ne_nil (segment rest : Bytes) : partsFrom segment rest ≠ [] := by
  intro h
  have hlength := congrArg List.length h
  rw [partsFrom, List.length_modifyHead] at hlength
  exact List.splitOnP_ne_nil _ _ (List.length_eq_zero_iff.mp hlength)

/-- What the loop returns: the segments that it had, and those that follow. A separator at the end
leaves an empty part behind, which is dropped if there is a segment at all. -/
def Collected (trailing : Bool) (parts segments out : List Bytes) : Prop :=
  ∃ more, out = segments ++ more ∧ (∀ s ∈ more, PlainSegment s) ∧
    (parts = more ∨ trailing = true ∧ out ≠ [] ∧ parts = more ++ [[]])

theorem collected_single {segments : List Bytes} (hne : segment ≠ []) :
    Collected trailing [segment] segments out ↔
      PlainSegment segment ∧ out = segments ++ [segment] := by
  constructor
  · rintro ⟨more, rfl, hplain, rfl | ⟨-, -, hmore⟩⟩
    · exact ⟨hplain segment (List.mem_singleton_self _), rfl⟩
    · have hlast := congrArg List.getLast? hmore
      rw [List.getLast?_concat] at hlast
      exact absurd (Option.some.inj hlast) hne
  · rintro ⟨hplain, rfl⟩
    exact ⟨[segment], rfl, List.forall_mem_singleton.mpr hplain, .inl rfl⟩

theorem collected_empty {segments : List Bytes} :
    Collected trailing [[]] segments out ↔ trailing = true ∧ segments ≠ [] ∧ out = segments := by
  constructor
  · rintro ⟨more, rfl, hplain, rfl | ⟨htrailing, hout, hmore⟩⟩
    · exact absurd rfl (hplain [] (List.mem_singleton_self _)).nonempty
    · cases @List.append_cancel_right _ [] [[]] more hmore
      rw [List.append_nil] at hout ⊢
      exact ⟨htrailing, hout, rfl⟩
  · rintro ⟨htrailing, hsegments, rfl⟩
    exact ⟨[], (List.append_nil _).symm, fun s hs => absurd hs List.not_mem_nil,
      .inr ⟨htrailing, hsegments, rfl⟩⟩

theorem collected_cons {parts segments : List Bytes} (hparts : parts ≠ []) :
    Collected trailing (segment :: parts) segments out ↔
      PlainSegment segment ∧ Collected trailing parts (segments ++ [segment]) out := by
  constructor
  · rintro ⟨more, rfl, hplain, rfl | ⟨htrailing, hout, hmore⟩⟩
    · obtain ⟨hsegment, hplain⟩ := List.forall_mem_cons.mp hplain
      exact ⟨hsegment, parts, by simp, hplain, .inl rfl⟩
    · cases more with
      | nil => exact absurd (List.cons.inj hmore).2 hparts
      | cons s more =>
        obtain ⟨rfl, hrest⟩ := List.cons.inj hmore
        obtain ⟨hsegment, hplain⟩ := List.forall_mem_cons.mp hplain
        exact ⟨hsegment, more, by simp, hplain, .inr ⟨htrailing, hout, hrest⟩⟩
  · rintro ⟨hsegment, more, rfl, hplain, hmore⟩
    refine ⟨segment :: more, by simp, List.forall_mem_cons.mpr ⟨hsegment, hplain⟩, ?_⟩
    rcases hmore with rfl | ⟨htrailing, hout, rfl⟩
    · exact .inl rfl
    · exact .inr ⟨htrailing, hout, rfl⟩

theorem pathSegments_eq_ok {trailing : Bool} : ∀ {rest : Bytes} {segments : List Bytes}
    {segment : Bytes} {out : List Bytes}, pathSegments trailing rest segments segment = .ok out ↔
      (0x3a : UInt8) ∉ rest ∧ Collected trailing (partsFrom segment rest) segments out
  | [], segments, segment, out => by
    rw [partsFrom_nil, pathSegments]
    by_cases hempty : segment = []
    · subst hempty
      rw [List.isEmpty_nil, if_pos rfl, collected_empty]
      split
      · next h =>
        rw [Bool.and_eq_true, Bool.not_eq_true', List.isEmpty_eq_false_iff] at h
        rw [Except.ok.injEq]
        exact ⟨fun heq => ⟨List.not_mem_nil, h.1, h.2, heq.symm⟩, fun ⟨_, _, _, heq⟩ => heq.symm⟩
      · next h =>
        rw [Bool.and_eq_true, Bool.not_eq_true', List.isEmpty_eq_false_iff] at h
        exact ⟨(nomatch ·), fun ⟨_, htrailing, hne, _⟩ => absurd ⟨htrailing, hne⟩ h⟩
    · rw [if_neg (by simpa using hempty), collected_single hempty, bind_eq_ok]
      constructor
      · rintro ⟨_, hcheck, heq⟩
        cases heq
        exact ⟨List.not_mem_nil, (checkSegment_eq_ok hempty).mp hcheck, rfl⟩
      · rintro ⟨-, hplain, rfl⟩
        exact ⟨(), (checkSegment_eq_ok hempty).mpr hplain, rfl⟩
  | c :: rest, segments, segment, out => by
    rw [pathSegments, List.mem_cons, not_or]
    by_cases hc : isSeparator c = true
    · have hcolon : (0x3a : UInt8) ≠ c := by
        rintro rfl
        revert hc
        decide
      rw [if_pos hc, partsFrom_separator hc, collected_cons (partsFrom_ne_nil _ _)]
      by_cases hempty : segment = []
      · subst hempty
        rw [List.isEmpty_nil, if_pos rfl]
        exact ⟨(nomatch ·), fun ⟨_, hplain, _⟩ => absurd rfl hplain.nonempty⟩
      · rw [if_neg (by simpa using hempty), bind_eq_ok]
        simp only [pathSegments_eq_ok, checkSegment_eq_ok hempty, exists_const, and_assoc]
        constructor
        · rintro ⟨hplain, hrest, hcollected⟩
          exact ⟨hcolon, hrest, hplain, hcollected⟩
        · rintro ⟨-, hrest, hplain, hcollected⟩
          exact ⟨hplain, hrest, hcollected⟩
    · rw [if_neg hc, partsFrom_other (by simpa using hc)]
      split
      · next h => exact ⟨(nomatch ·), fun ⟨⟨hne, _⟩, _⟩ => absurd (beq_iff_eq.mp h).symm hne⟩
      · next h =>
        rw [pathSegments_eq_ok]
        have hne : (0x3a : UInt8) ≠ c := fun heq => h (beq_iff_eq.mpr heq.symm)
        exact ⟨fun ⟨hrest, hcollected⟩ => ⟨⟨hne, hrest⟩, hcollected⟩,
          fun ⟨⟨_, hrest⟩, hcollected⟩ => ⟨hrest, hcollected⟩⟩

/-- A last part without bytes stands behind a separator. -/
theorem trailing_of_getLast {p : UInt8 → Bool} : ∀ {raw : Bytes}, raw ≠ [] →
    (raw.splitOnP p).getLast? = some [] → raw.getLast?.any p = true
  | [], hne, _ => absurd rfl hne
  | [c], _, h => by
    rw [List.splitOnP_cons_eq_if_modifyHead] at h
    split at h
    · next hc => exact hc
    · cases h
  | c :: d :: rest, _, h => by
    rw [List.getLast?_cons_cons]
    refine trailing_of_getLast (List.cons_ne_nil d rest) ?_
    rw [List.splitOnP_cons_eq_if_modifyHead] at h
    cases hparts : (d :: rest).splitOnP p with
    | nil => exact absurd hparts (List.splitOnP_ne_nil _ _)
    | cons part parts =>
      rw [hparts] at h
      split at h
      · rwa [List.getLast?_cons_cons] at h
      · cases parts with
        | nil => cases h
        | cons next parts => exact h

/-! ## Whole names -/

theorem normalizePath_eq_ok {raw result : Bytes} {budgets : Budgets} :
    normalizePath raw budgets = .ok result ↔
      ∃ segments, EntryName raw budgets.maxDepth segments ∧ result = joinSlash segments := by
  simp only [normalizePath, bind_eq_ok, demand_eq_ok, exists_const, pathSegments_eq_ok,
    partsFrom_start, Bool.and_eq_true, Bool.not_eq_true', Bool.or_eq_false_iff,
    List.isEmpty_eq_false_iff, decide_eq_true_eq, List.all_eq_true]
  constructor
  · rintro ⟨⟨hne, hlength⟩, hprintable, ⟨hrooted, hdrive⟩, segments,
      ⟨hcolon, _, rfl, hplain, hsplit⟩, ⟨hsegments, hdepth⟩, hresult⟩
    cases hresult
    refine ⟨segments, ⟨⟨List.length_pos_iff.mpr hne, hlength⟩, hprintable, hrooted, ?_, hcolon, ?_,
      ⟨List.length_pos_iff.mpr hsegments, hdepth⟩, hplain⟩, rfl⟩
    · rintro letter rest rfl
      exact absurd (List.mem_cons_of_mem _ List.mem_cons_self) hcolon
    · exact hsplit.imp id fun h => h.2.2
  · rintro ⟨segments, h, rfl⟩
    have hne : raw ≠ [] := List.length_pos_iff.mp h.length.1
    have hsegments : segments ≠ [] := List.length_pos_iff.mp h.depth.1
    refine ⟨⟨hne, h.length.2⟩, h.printable, ⟨h.rooted, ?_⟩, segments,
      ⟨h.colon, segments, rfl, h.plain, ?_⟩, ⟨hsegments, h.depth.2⟩, rfl⟩
    · rw [Bool.and_eq_false_iff]
      refine .inr (beq_eq_false_iff_ne.mpr fun hsecond => ?_)
      exact h.colon (List.mem_of_getElem? hsecond)
    · refine h.split.imp id fun hsplit => ⟨trailing_of_getLast hne ?_, hsegments, hsplit⟩
      rw [hsplit, List.getLast?_concat]

/-! ## Normalized names -/

theorem mem_of_mem_splitOnP {p : UInt8 → Bool} {c : UInt8} : ∀ {raw part : Bytes},
    part ∈ raw.splitOnP p → c ∈ part → c ∈ raw ∧ p c = false
  | [], part, hpart, hc => by
    rw [List.splitOnP_nil, List.mem_singleton] at hpart
    subst hpart
    exact absurd hc List.not_mem_nil
  | d :: rest, part, hpart, hc => by
    rw [List.splitOnP_cons_eq_if_modifyHead] at hpart
    split at hpart
    · rcases List.mem_cons.mp hpart with rfl | hpart
      · exact absurd hc List.not_mem_nil
      · obtain ⟨hmem, hp⟩ := mem_of_mem_splitOnP hpart hc
        exact ⟨List.mem_cons_of_mem d hmem, hp⟩
    · next hd =>
      cases hparts : rest.splitOnP p with
      | nil => exact absurd hparts (List.splitOnP_ne_nil _ _)
      | cons first parts =>
        rw [hparts, List.modifyHead_cons, List.mem_cons] at hpart
        rcases hpart with rfl | hpart
        · rcases List.mem_cons.mp hc with rfl | hc
          · exact ⟨List.mem_cons_self, by simpa using hd⟩
          · obtain ⟨hmem, hp⟩ := mem_of_mem_splitOnP (hparts ▸ List.mem_cons_self) hc
            exact ⟨List.mem_cons_of_mem d hmem, hp⟩
        · obtain ⟨hmem, hp⟩ := mem_of_mem_splitOnP (hparts ▸ List.mem_cons_of_mem first hpart) hc
          exact ⟨List.mem_cons_of_mem d hmem, hp⟩

theorem length_joinSlash_splitOnP {p : UInt8 → Bool} : ∀ raw : Bytes,
    (joinSlash (raw.splitOnP p)).length = raw.length
  | [] => rfl
  | c :: rest => by
    have ih := @length_joinSlash_splitOnP p rest
    rw [List.splitOnP_cons_eq_if_modifyHead]
    cases hparts : rest.splitOnP p with
    | nil => exact absurd hparts (List.splitOnP_ne_nil _ _)
    | cons first parts =>
      rw [hparts] at ih
      split
      · rw [joinSlash, List.nil_append, List.length_cons, ih, List.length_cons]
      · rw [List.modifyHead_cons]
        cases parts with
        | nil => exact congrArg Nat.succ ih
        | cons next parts => exact congrArg Nat.succ ih

/-- Where slashes are the only separators, the parts joined are the text. -/
theorem joinSlash_splitOnP {p : UInt8 → Bool} : ∀ {raw : Bytes},
    (∀ c ∈ raw, p c = true → c = 0x2f) → joinSlash (raw.splitOnP p) = raw
  | [], _ => rfl
  | c :: rest, h => by
    have ih := @joinSlash_splitOnP p rest fun d hd => h d (List.mem_cons_of_mem c hd)
    rw [List.splitOnP_cons_eq_if_modifyHead]
    cases hparts : rest.splitOnP p with
    | nil => exact absurd hparts (List.splitOnP_ne_nil _ _)
    | cons first parts =>
      rw [hparts] at ih
      split
      · next hc => rw [joinSlash, List.nil_append, ih, h c List.mem_cons_self hc]
      · rw [List.modifyHead_cons]
        cases parts with
        | nil => exact congrArg (c :: ·) ih
        | cons next parts => exact congrArg (c :: ·) ih

theorem splitOnP_joinSlash : ∀ {ns : List Bytes}, ns ≠ [] →
    (∀ n ∈ ns, ∀ c ∈ n, isSeparator c = false) → (joinSlash ns).splitOnP isSeparator = ns
  | [], hne, _ => absurd rfl hne
  | [n], _, h => List.splitOnP_eq_singleton (h n (List.mem_singleton_self n))
  | n :: m :: rest, _, h => by
    rw [joinSlash, List.splitOnP_append_cons n _ (by decide),
      List.splitOnP_eq_singleton (h n List.mem_cons_self),
      splitOnP_joinSlash (List.cons_ne_nil m rest) fun k hk => h k (List.mem_cons_of_mem n hk)]
    rfl

namespace EntryName

variable {raw : Bytes} {maxDepth : Nat} {segments : List Bytes}

theorem mem_raw (h : EntryName raw maxDepth segments) {s : Bytes} (hs : s ∈ segments) (hc : c ∈ s) :
    c ∈ raw ∧ isSeparator c = false := by
  refine @mem_of_mem_splitOnP isSeparator c raw s ?_ hc
  rcases h.split with hsplit | hsplit
  · rwa [hsplit]
  · rw [hsplit]
    exact List.mem_append_left _ hs

theorem length_le (h : EntryName raw maxDepth segments) :
    (joinSlash segments).length ≤ raw.length := by
  have hsegments : segments ≠ [] := List.length_pos_iff.mp h.depth.1
  rw [← @length_joinSlash_splitOnP isSeparator raw]
  rcases h.split with hsplit | hsplit
  · rw [hsplit]
  · rw [hsplit, joinSlash_concat [] hsegments, List.length_append]
    exact Nat.le_add_right _ _

/-- The segments of a name, joined, are a name with the same segments. -/
theorem normalized (h : EntryName raw maxDepth segments) :
    EntryName (joinSlash segments) maxDepth segments := by
  have hsegments : segments ≠ [] := List.length_pos_iff.mp h.depth.1
  obtain ⟨first, rest, rfl⟩ := List.exists_cons_of_ne_nil hsegments
  have hfirst := (h.plain first List.mem_cons_self).nonempty
  have hbyte : ∀ c ∈ joinSlash (first :: rest), c = 0x2f ∨ c ∈ raw := by
    intro c hc
    refine (mem_joinSlash hc).imp id ?_
    rintro ⟨s, hs, hc⟩
    exact (h.mem_raw hs hc).1
  have hcolon : (0x3a : UInt8) ∉ joinSlash (first :: rest) := by
    intro hc
    rcases hbyte _ hc with hslash | hc
    · revert hslash
      decide
    · exact h.colon hc
  have hsplit := splitOnP_joinSlash hsegments fun s hs c hc => (h.mem_raw hs hc).2
  have hnonempty : joinSlash (first :: rest) ≠ [] := by
    intro hnil
    have hhead := @joinSlash_head first rest hfirst
    rw [hnil, List.head?_nil, eq_comm, List.head?_eq_none_iff] at hhead
    exact hfirst hhead
  refine ⟨⟨List.length_pos_iff.mpr hnonempty, h.length_le.trans h.length.2⟩, fun c hc => ?_, ?_, ?_,
    hcolon, .inl hsplit, h.depth, h.plain⟩
  · rcases hbyte c hc with rfl | hc
    · decide
    · exact h.printable c hc
  · obtain ⟨c, s, rfl⟩ := List.exists_cons_of_ne_nil hfirst
    rw [joinSlash_head hfirst]
    exact (h.mem_raw List.mem_cons_self List.mem_cons_self).2
  · intro letter tail heq
    exact absurd (heq ▸ List.mem_cons_of_mem letter List.mem_cons_self) hcolon

theorem splitSlash_normalized (h : EntryName raw maxDepth segments) :
    splitSlash (joinSlash segments) = segments := by
  refine splitSlash_joinSlash (List.length_pos_iff.mp h.depth.1) fun s hs hc => ?_
  have hseparator := (h.mem_raw hs hc).2
  revert hseparator
  decide

end EntryName

/-- A path that stays below the directory it is joined to, however it is taken apart. -/
structure SafeRelative (path : Bytes) : Prop where
  relative : path.head?.any isSeparator = false
  separator : (0x5c : UInt8) ∉ path
  colon : (0x3a : UInt8) ∉ path
  names : ∀ name ∈ splitSlash path, name ≠ [] ∧ name ≠ ascii "." ∧ name ≠ ascii ".."

theorem EntryName.safeRelative {raw : Bytes} {maxDepth : Nat} {segments : List Bytes}
    (h : EntryName raw maxDepth segments) : SafeRelative (joinSlash segments) := by
  have hnormal := h.normalized
  refine ⟨hnormal.rooted, fun hc => ?_, hnormal.colon, fun name hname => ?_⟩
  · rcases mem_joinSlash hc with hslash | ⟨s, hs, hc⟩
    · revert hslash
      decide
    · have hseparator := (h.mem_raw hs hc).2
      revert hseparator
      decide
  · rw [h.splitSlash_normalized] at hname
    have hplain := h.plain name hname
    exact ⟨hplain.nonempty, hplain.dot, hplain.dots⟩

/-- A name is taken exactly if it is an `EntryName`. The result has the segments of the name with
slashes between them, stays below its directory, and is its own normal form. -/
theorem normalizePath_exact (raw : Bytes) (budgets : Budgets) :
    ((∃ result, normalizePath raw budgets = .ok result) ↔
      ∃ segments, EntryName raw budgets.maxDepth segments) ∧
    ∀ result, normalizePath raw budgets = .ok result →
      SafeRelative result ∧ normalizePath result budgets = .ok result ∧
      ∃ segments, EntryName raw budgets.maxDepth segments ∧ result = joinSlash segments := by
  simp only [normalizePath_eq_ok]
  constructor
  · constructor
    · rintro ⟨result, segments, h, -⟩
      exact ⟨segments, h⟩
    · rintro ⟨segments, h⟩
      exact ⟨joinSlash segments, segments, h, rfl⟩
  · rintro result ⟨segments, h, rfl⟩
    exact ⟨h.safeRelative, ⟨segments, h.normalized, rfl⟩, segments, h, rfl⟩

/-- Both separators and one at the end. -/
theorem normalizePath_separators : normalizePath (ascii "a\\b/c.txt/") {} =
    .ok (ascii "a/b/c.txt") ∧ normalizePath (ascii "a/b/c.txt") {} = .ok (ascii "a/b/c.txt") := by
  have htaken : normalizePath (ascii "a\\b/c.txt/") {} = .ok (ascii "a/b/c.txt") := rfl
  exact ⟨htaken, ((normalizePath_exact (ascii "a\\b/c.txt/") {}).2 _ htaken).2.1⟩

end Usk.Archive
