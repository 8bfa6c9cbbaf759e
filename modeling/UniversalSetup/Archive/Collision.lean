import UniversalSetup.Archive.Layout

/-!
# Colliding paths

The records of a central directory arrive in any order, and each path is compared with those before
it: a file may not lie above a path that came earlier, and no path may lie below a file that came
earlier. `Collisionless` is what this amounts to for the whole list, and it does not depend on the
order.
-/

namespace Usk.Archive

open Json (Result demand demand_eq_ok bind_eq_ok)
open Arith (checked)

variable {seen' seen : List (Bytes × Bool)} {normalized : Bytes} {source : StableFile}

/-- `p` is the path of a directory above `q`. -/
def ProperAncestor (p q : Bytes) : Prop :=
  ∃ rest, q = p ++ 0x2f :: rest

/-- The path of an entry, and whether it is a directory. -/
abbrev PathKind := Bytes × Bool

variable {p : PathKind} {before paths : List PathKind}

def Entry.pathKind (entry : Entry) : PathKind :=
  (entry.normalizedPath, entry.directory)

/-- Paths that can be extracted next to each other on a file system that ignores case. -/
structure Collisionless (paths : List PathKind) : Prop where
  distinct : paths.Pairwise fun a b => lowercaseAscii a.1 ≠ lowercaseAscii b.1
  outside : ∀ a ∈ paths, a.2 = false → ∀ b ∈ paths,
    ¬ProperAncestor (lowercaseAscii a.1) (lowercaseAscii b.1)

/-- `validate_path_collision` for one path after the other. -/
def validatePathCollisions (seen : List (Bytes × Bool)) :
    List PathKind → Result (List (Bytes × Bool))
  | [] => .ok seen
  | p :: rest => do
    let seen ← validatePathCollision seen p.1 p.2
    validatePathCollisions seen rest

/-! ## One path -/

theorem mem_ancestors {a : Bytes} : ∀ {seen key : Bytes},
    a ∈ ancestors seen key ↔ ∃ x y, key = x ++ 0x2f :: y ∧ a = seen ++ x
  | seen, [] => by simp [ancestors]
  | seen, c :: rest => by
    have ih := @mem_ancestors a (seen ++ [c]) rest
    have hrest : (∃ x y, rest = x ++ 0x2f :: y ∧ a = seen ++ [c] ++ x) ↔
        ∃ x y, c :: rest = (c :: x) ++ 0x2f :: y ∧ a = seen ++ (c :: x) := by
      simp
    -- the separator in question is the first byte or lies in the rest
    have hsplit : (∃ x y, c :: rest = x ++ 0x2f :: y ∧ a = seen ++ x) ↔
        (c = 0x2f ∧ a = seen) ∨ ∃ x y, c :: rest = (c :: x) ++ 0x2f :: y ∧ a = seen ++
          (c :: x) := by
      constructor
      · rintro ⟨x, y, hkey, ha⟩
        cases x with
        | nil =>
          cases hkey
          exact Or.inl ⟨rfl, by simpa using ha⟩
        | cons d x =>
          cases hkey
          exact Or.inr ⟨x, y, rfl, ha⟩
      · rintro (⟨rfl, rfl⟩ | ⟨x, y, hkey, ha⟩)
        · exact ⟨[], rest, rfl, by simp⟩
        · exact ⟨c :: x, y, hkey, ha⟩
    rw [hsplit, ← hrest, ← ih, ancestors]
    by_cases hc : c = 0x2f
    · rw [if_pos hc, List.mem_cons]
      simp [hc]
    · rw [if_neg hc]
      simp [hc]

theorem mem_ancestors_nil {a key : Bytes} : a ∈ ancestors [] key ↔ ProperAncestor a key := by
  rw [mem_ancestors]
  constructor
  · rintro ⟨x, y, hkey, rfl⟩
    exact ⟨y, hkey⟩
  · rintro ⟨y, hkey⟩
    exact ⟨a, y, hkey, rfl⟩

theorem ProperAncestor.ne {p q : Bytes} (h : ProperAncestor p q) : p ≠ q := by
  obtain ⟨rest, rfl⟩ := h
  intro heq
  have := congrArg List.length heq
  simp at this

theorem properAncestor_iff_begins {p q : Bytes} : ProperAncestor p q ↔ p ++ [0x2f] <+: q := by
  constructor
  · rintro ⟨rest, rfl⟩
    exact ⟨rest, by simp⟩
  · rintro ⟨rest, rfl⟩
    exact ⟨rest, by simp⟩

/-- A path is accepted if it and the paths before it do not collide. -/
theorem validatePathCollision_eq_ok {directory : Bool} (hs : ByteMap.Sorted seen) :
    validatePathCollision seen normalized directory = .ok seen' ↔
      (∀ e ∈ seen, e.1 ≠ lowercaseAscii normalized) ∧
      (∀ e ∈ seen, e.2 = false → ¬ProperAncestor e.1 (lowercaseAscii normalized)) ∧
      (directory = false → ∀ e ∈ seen, ¬ProperAncestor (lowercaseAscii normalized) e.1) ∧
      seen' = ByteMap.insert seen (lowercaseAscii normalized) directory := by
  unfold validatePathCollision
  generalize lowercaseAscii normalized = key
  dsimp only
  rw [ByteMap.emplace]
  by_cases hnew : ByteMap.find seen key = none
  · have habsent : ∀ e ∈ seen, e.1 ≠ key := fun e he heq =>
      ByteMap.find_eq_none.mp hnew (List.mem_map.mpr ⟨e, he, heq⟩)
    have hsorted := ByteMap.sorted_insert hs key directory
    have hup : ((ancestors [] key).all fun a =>
        ByteMap.find (ByteMap.insert seen key directory) a != some false) = true ↔
        ∀ e ∈ seen, e.2 = false → ¬ProperAncestor e.1 key := by
      rw [List.all_eq_true]
      constructor
      · intro hall e he hfile hanc
        have hfind := hall e.1 (mem_ancestors_nil.mpr hanc)
        rw [bne_iff_ne] at hfind
        rw [ByteMap.find_of_mem (ByteMap.nodup_of_sorted hsorted) ((ByteMap.mem_insert_iff hnew).mpr
          (Or.inr he)), hfile] at hfind
        exact hfind rfl
      · intro hall a ha
        rw [bne_iff_ne]
        intro hfind
        have hanc := mem_ancestors_nil.mp ha
        rcases (ByteMap.mem_insert_iff hnew).mp (ByteMap.mem_of_find hfind) with heq | hold
        · exact hanc.ne (congrArg Prod.fst heq)
        · exact hall (a, false) hold rfl hanc
    have hdown : ((ByteMap.lowerBound (ByteMap.insert seen key directory) (key ++ [0x2f])).any
        fun e => (key ++ [0x2f]).isPrefixOf e.1) = false ↔ ∀ e ∈ seen, ¬ProperAncestor key e.1 := by
      rw [← Bool.not_eq_true, Option.any_eq_true]
      simp only [ List.isPrefixOf_iff_prefix]
      rw [ByteMap.lowerBound_begins hsorted, not_exists]
      constructor
      · intro hno e he hanc
        exact hno e ⟨(ByteMap.mem_insert_iff hnew).mpr (Or.inr he), properAncestor_iff_begins.mp
          hanc⟩
      · rintro hno e ⟨he, hpre⟩
        have hanc := properAncestor_iff_begins.mpr hpre
        rcases (ByteMap.mem_insert_iff hnew).mp he with rfl | he
        · exact hanc.ne rfl
        · exact hno e he hanc
    rw [hnew, Option.isSome_none, if_neg (by decide)]
    simp only [bind_eq_ok, demand_eq_ok, exists_const, hup, Bool.or_eq_true, Bool.not_eq_true',
      hdown, pure, Except.pure, Except.ok.injEq]
    constructor
    · rintro ⟨h1, h2, h3⟩
      refine ⟨habsent, h1, fun hfile => h2.resolve_left ?_, h3.symm⟩
      rw [hfile]
      decide
    · rintro ⟨-, h1, h2, h3⟩
      refine ⟨h1, ?_, h3.symm⟩
      cases directory with
      | true => exact Or.inl rfl
      | false => exact Or.inr (h2 rfl)
  · obtain ⟨value, hvalue⟩ := Option.ne_none_iff_exists'.mp hnew
    rw [hvalue, Option.isSome_some, if_pos rfl]
    constructor
    · intro h
      cases h
    · rintro ⟨habsent, -⟩
      exact absurd rfl (habsent _ (ByteMap.mem_of_find hvalue))

/-! ## A list of paths -/

/-- The entry of a path in the map. -/
def PathKind.folded (p : PathKind) : Bytes × Bool :=
  (lowercaseAscii p.1, p.2)

/-- The map after the paths `before`. -/
structure Seen (seen : List (Bytes × Bool)) (before : List PathKind) : Prop where
  sorted : ByteMap.Sorted seen
  mem : ∀ e, e ∈ seen ↔ ∃ p ∈ before, PathKind.folded p = e

theorem Collisionless.of_append {after : List PathKind} (h : Collisionless (before ++ after)) :
    Collisionless before :=
  ⟨(List.pairwise_append.mp h.distinct).1, fun a ha hfile b hb =>
    h.outside a (List.mem_append_left _ ha) hfile b (List.mem_append_left _ hb)⟩

theorem Collisionless.perm {paths' : List PathKind} (h : Collisionless paths)
    (hperm : paths.Perm paths') : Collisionless paths' := by
  refine ⟨(hperm.pairwise_iff fun hne => Ne.symm hne).mp h.distinct, fun a ha hfile b hb => ?_⟩
  exact h.outside a (hperm.mem_iff.mpr ha) hfile b (hperm.mem_iff.mpr hb)

/-- One more path. -/
theorem collisionless_concat (h : Collisionless before) :
    Collisionless (before ++ [p]) ↔
      (∀ b ∈ before, lowercaseAscii b.1 ≠ lowercaseAscii p.1) ∧
      (∀ b ∈ before, b.2 = false → ¬ProperAncestor (lowercaseAscii b.1) (lowercaseAscii p.1)) ∧
      (p.2 = false → ∀ b ∈ before, ¬ProperAncestor (lowercaseAscii p.1) (lowercaseAscii b.1)) := by
  have hlast : p ∈ before ++ [p] := List.mem_append_right _ (List.mem_singleton_self p)
  constructor
  · intro hall
    refine ⟨fun b hb => ?_, fun b hb hfile => ?_, fun hfile b hb => ?_⟩
    · exact (List.pairwise_append.mp hall.distinct).2.2 b hb p (List.mem_singleton_self p)
    · exact hall.outside b (List.mem_append_left _ hb) hfile p hlast
    · exact hall.outside p hlast hfile b (List.mem_append_left _ hb)
  · rintro ⟨hne, hup, hdown⟩
    refine ⟨List.pairwise_append.mpr ⟨h.distinct, List.pairwise_singleton _ _, ?_⟩, ?_⟩
    · intro b hb q hq
      cases List.mem_singleton.mp hq
      exact hne b hb
    · intro a ha hfile b hb
      rcases List.mem_append.mp ha with ha | ha <;> rcases List.mem_append.mp hb with hb | hb
      · exact h.outside a ha hfile b hb
      · cases List.mem_singleton.mp hb
        exact hup a ha hfile
      · cases List.mem_singleton.mp ha
        exact hdown hfile b hb
      · cases List.mem_singleton.mp ha
        cases List.mem_singleton.mp hb
        exact fun hanc => hanc.ne rfl

theorem Seen.validate (h : Seen seen before) (hb : Collisionless before) :
    validatePathCollision seen p.1 p.2 = .ok seen' ↔
      Collisionless (before ++ [p]) ∧ seen' = ByteMap.insert seen (lowercaseAscii p.1) p.2 := by
  have hmem : ∀ {P : Bytes × Bool → Prop},
      (∀ e ∈ seen, P e) ↔ ∀ b ∈ before, P (PathKind.folded b) := by
    intro P
    constructor
    · exact fun hall b hb => hall _ ((h.mem _).mpr ⟨b, hb, rfl⟩)
    · intro hall e he
      obtain ⟨b, hb, rfl⟩ := (h.mem e).mp he
      exact hall b hb
  rw [validatePathCollision_eq_ok h.sorted, collisionless_concat hb, hmem, hmem, hmem]
  simp only [PathKind.folded, and_assoc]

theorem Seen.insert (h : Seen seen before) (hb : Collisionless (before ++ [p])) :
    Seen (ByteMap.insert seen (lowercaseAscii p.1) p.2) (before ++ [p]) := by
  have hnew : ByteMap.find seen (lowercaseAscii p.1) = none := by
    refine ByteMap.find_eq_none.mpr fun hkey => ?_
    obtain ⟨e, he, heq⟩ := List.mem_map.mp hkey
    obtain ⟨b, hmem, rfl⟩ := (h.mem e).mp he
    exact (List.pairwise_append.mp hb.distinct).2.2 b hmem p (List.mem_singleton_self p) heq
  constructor
  · exact ByteMap.sorted_insert h.sorted _ _
  · intro e
    rw [ByteMap.mem_insert_iff hnew, h.mem]
    constructor
    · rintro (rfl | ⟨b, hmem, rfl⟩)
      · exact ⟨p, List.mem_append_right _ (List.mem_singleton_self p), rfl⟩
      · exact ⟨b, List.mem_append_left _ hmem, rfl⟩
    · rintro ⟨b, hmem, rfl⟩
      rcases List.mem_append.mp hmem with hmem | hmem
      · exact Or.inr ⟨b, hmem, rfl⟩
      · cases List.mem_singleton.mp hmem
        exact Or.inl rfl

/-- The check of a whole list, by induction over what is still to come. -/
theorem Seen.validateAll : ∀ {rest : List PathKind} {seen : List (Bytes × Bool)}
    {before : List PathKind}, Seen seen before → Collisionless before →
    ((∃ seen', validatePathCollisions seen rest = .ok seen') ↔ Collisionless (before ++ rest))
  | [], seen, before, _, hb => by
    rw [List.append_nil]
    exact ⟨fun _ => hb, fun _ => ⟨seen, rfl⟩⟩
  | p :: rest, seen, before, h, hb => by
    have hassoc : before ++ p :: rest = (before ++ [p]) ++ rest := by simp
    simp only [validatePathCollisions, bind_eq_ok, h.validate hb]
    rw [hassoc]
    constructor
    · rintro ⟨seen', _, ⟨hp, rfl⟩, hrest⟩
      exact ((h.insert hp).validateAll hp).mp ⟨seen', hrest⟩
    · intro hall
      have hp := hall.of_append
      obtain ⟨seen', hrest⟩ := ((h.insert hp).validateAll hp).mpr hall
      exact ⟨seen', _, ⟨hp, rfl⟩, hrest⟩

theorem validatePathCollisions_iff :
    (∃ seen, validatePathCollisions [] paths = .ok seen) ↔ Collisionless paths := by
  have hnone : Seen [] [] := ⟨.nil, fun e => by simp⟩
  exact hnone.validateAll ⟨.nil, fun a ha => absurd ha List.not_mem_nil⟩

/-! ## Extraction -/

/-- Extracting the entries puts a file at this path. -/
def NeedsFile (paths : List PathKind) (q : Bytes) : Prop :=
  ∃ p ∈ paths, p.2 = false ∧ lowercaseAscii p.1 = q

/-- Extracting the entries makes a directory at this path, for an entry or on the way to one. -/
def NeedsDirectory (paths : List PathKind) (q : Bytes) : Prop :=
  ∃ p ∈ paths, (p.2 = true ∧ lowercaseAscii p.1 = q) ∨ ProperAncestor q (lowercaseAscii p.1)

theorem Collisionless.extractable (h : Collisionless paths) (q : Bytes) :
    ¬(NeedsFile paths q ∧ NeedsDirectory paths q) := by
  rintro ⟨⟨a, ha, hfile, rfl⟩, b, hb, ⟨hdir, heq⟩ | hanc⟩
  · have hne : a ≠ b := by
      rintro rfl
      rw [hfile] at hdir
      cases hdir
    have hnodup : (paths.map fun p => lowercaseAscii p.1).Nodup := List.pairwise_map.mpr h.distinct
    exact hne (List.inj_on_of_nodup_map hnodup ha hb heq.symm)
  · exact h.outside a ha hfile b hb hanc

/-! ## Accepted archives -/

theorem localEntry_pathKind {centralOffset : Nat} {record : CentralRecord} {entry : Entry}
    (h : localEntry checked source centralOffset record normalized = .ok entry) :
    entry.pathKind = (normalized, record.directory) := by
  simp only [localEntry, bind_eq_ok] at h
  obtain ⟨_, -, _, -, _, -, _, -, _, -, _, -, _, -, _, -, _, -, _, -, _, -, _, -, _, -, _, -, _, -,
    _, -, _, -, _, -, _, -, _, -, h⟩ := h
  cases h
  rfl

/-- The loop over the central directory checks the paths of its entries, in record order. -/
theorem scanEntries_paths {host : Host} {source : StableFile} {budgets : Budgets}
    {central : Bytes} {centralOffset : Nat} : ∀ {n : Nat} {s s' : Scan},
    scanEntries checked host source budgets central centralOffset n s = .ok s' →
    ∃ entries, s'.entries = s.entries ++ entries ∧
      validatePathCollisions s.paths (entries.map Entry.pathKind) = .ok s'.paths
  | 0, s, s', h => by
    cases h
    exact ⟨[], (List.append_nil _).symm, rfl⟩
  | n + 1, s, s', h => by
    simp only [scanEntries, bind_eq_ok] at h
    obtain ⟨_, -, next, hnext, h⟩ := h
    obtain ⟨entries, hentries, hrest⟩ := scanEntries_paths h
    simp only [scanEntry, bind_eq_ok] at hnext
    obtain ⟨record, -, normalized, -, counted, -, paths, hpaths, entry, hentry, hnext⟩ := hnext
    cases hnext
    refine ⟨entry :: entries, ?_, ?_⟩
    · rw [hentries, List.append_assoc]
      rfl
    · rw [List.map_cons, localEntry_pathKind hentry, validatePathCollisions, hpaths]
      exact hrest

theorem inspectSource_collisionless {host : Host} {budgets : Budgets} {inspection : Inspection}
    (h : inspectSource checked host source budgets = .ok inspection) :
    Collisionless (inspection.entries.map Entry.pathKind) := by
  simp only [inspectSource, bind_eq_ok] at h
  obtain ⟨_, -, sha, -, classic, -, effective, -, _, -, central, -, s, hscan, _, -, _, -, _, -, _,
    -, h⟩ := h
  cases h
  obtain ⟨entries, hentries, hpaths⟩ := scanEntries_paths hscan
  rw [List.nil_append] at hentries
  have hcollisionless := validatePathCollisions_iff.mp ⟨_, hpaths⟩
  have hperm := List.perm_insertionSort
    (fun left right : Entry => ¬right.normalizedPath < left.normalizedPath) s.entries
  rw [← hentries] at hcollisionless
  exact hcollisionless.perm (hperm.symm.map _)

/--
The paths of an accepted archive do not collide, so no path is needed as a file and as a directory.
The check accepts a list of paths exactly if they do not collide, in whatever order it gets them.
-/
theorem accepted_paths_collisionless (host : Host) (request : Bytes) :
    (∀ inspection, inspectZip .wrapping host request = .ok inspection →
      Collisionless (inspection.entries.map Entry.pathKind) ∧
      ∀ q, ¬(NeedsFile (inspection.entries.map Entry.pathKind) q ∧
        NeedsDirectory (inspection.entries.map Entry.pathKind) q)) ∧
    (∀ paths, (∃ seen, validatePathCollisions [] paths = .ok seen) ↔ Collisionless paths) ∧
    ∀ paths paths' : List PathKind, paths.Perm paths' →
      ((∃ seen, validatePathCollisions [] paths = .ok seen) ↔
        ∃ seen, validatePathCollisions [] paths' = .ok seen) := by
  refine ⟨fun inspection h => ?_, fun paths => validatePathCollisions_iff, fun paths paths' hp =>
    ?_⟩
  · rw [inspectZip_exact] at h
    simp only [inspectZip, bind_eq_ok] at h
    obtain ⟨parsed, -, source, -, h⟩ := h
    have hcollisionless := inspectSource_collisionless h
    exact ⟨hcollisionless, hcollisionless.extractable⟩
  · rw [validatePathCollisions_iff, validatePathCollisions_iff]
    exact ⟨fun h => h.perm hp, fun h => h.perm hp.symm⟩

/-- In the second part the directory is spelled in another case than in the path of its file. -/
theorem sampleArchive_collisionless :
    (∃ inspection, inspectZip .wrapping sampleHost sampleRequest = .ok inspection ∧
      Collisionless (inspection.entries.map Entry.pathKind)) ∧
    ∃ seen, validatePathCollisions [] [(ascii "d/f", false), (ascii "D", true)] = .ok seen := by
  obtain ⟨hall, -, horder⟩ := accepted_paths_collisionless sampleHost sampleRequest
  constructor
  · obtain ⟨inspection, h⟩ := sampleArchive_accepted
    exact ⟨inspection, h, (hall inspection h).1⟩
  · exact (horder [(ascii "D", true), (ascii "d/f", false)] _ (.swap _ _ _)).mp ⟨_, rfl⟩

end Usk.Archive
