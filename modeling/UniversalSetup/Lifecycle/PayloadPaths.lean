import UniversalSetup.Lifecycle.Payload
import UniversalSetup.State.Realizable

/-!
# The paths of a payload

What the checks of a payload say about its paths, by their names: on a file system that folds the
case of letters, and for the staging that follows. `validate_normalized_files` folds texts where it
looks for equal paths, and does not fold them where it looks for a file on the way to another one.
Both `safe_relative` and `safe_relative_path` look at the names of a path, but a slash at its end is
a name for the second only.
-/

namespace Usk.Lifecycle

open Json
open State (entryNames)

variable {tree : StagingTree}

/-- What `validate_normalized_files` finds out about paths and about what is handed on with them. -/
structure ValidPaths (files : List PayloadFile) : Prop where
  valid : ∀ file ∈ files, (stageRequest file).valid = true
  safe : ∀ file ∈ files, safeRelative file.relativePath = true
  folded : (files.map fun file => lowercase file.relativePath).Nodup
  apart : ∀ file ∈ files, ∀ parent ∈ State.parentPaths file.relativePath, ∀ other ∈ files,
    other.relativePath ≠ parent

theorem checkFiles_folded : ∀ {files : List PayloadFile} {previous : Option Bytes}
    {retained pathBytes : Nat} {folded : List Bytes} {u : Unit},
    checkFiles previous retained pathBytes folded files = .ok u →
    (files.map fun file => lowercase file.relativePath).Nodup ∧
      ∀ file ∈ files, lowercase file.relativePath ∉ folded
  | [], _, _, _, _, _, _ => ⟨List.nodup_nil, List.forall_mem_nil _⟩
  | file :: rest, _, _, _, folded, _, h => by
    simp only [checkFiles, bind_eq_ok, demand_eq_ok] at h
    obtain ⟨_, -, _, hpath, _, -, h⟩ := h
    obtain ⟨hnodup, hnew⟩ := checkFiles_folded h
    rw [Bool.and_eq_true] at hpath
    refine ⟨List.nodup_cons.mpr ⟨fun hmem => ?_, hnodup⟩, List.forall_mem_cons.mpr ⟨?_, ?_⟩⟩
    · obtain ⟨other, hother, heq⟩ := List.mem_map.mp hmem
      exact hnew other hother (List.mem_cons.mpr (.inl heq))
    · simpa using hpath.2
    · exact fun other hother hmem => hnew other hother (List.mem_cons_of_mem _ hmem)

theorem validPaths_of_validate {files : List PayloadFile}
    (h : validateNormalizedFiles files = .ok ()) : ValidPaths files := by
  simp only [validateNormalizedFiles, bind_eq_ok, demand_eq_ok] at h
  obtain ⟨_, -, _, hcheck, hapart⟩ := h
  have hfiles := (checkFiles_eq_ok hcheck).2.2
  refine ⟨fun file hfile => (hfiles file hfile).2.2, fun file hfile => (hfiles file hfile).1,
    (checkFiles_folded hcheck).1, fun file hfile parent hparent other hother heq => ?_⟩
  simp only [List.all_eq_true, Bool.not_eq_true', List.contains_eq_mem, decide_eq_false_iff_not,
    List.mem_map, not_exists, not_and] at hapart
  exact hapart file hfile parent hparent other hother heq

/-! ## Folded names -/

/-- The names of a path on a file system that folds letters. -/
def foldedNames (value : Bytes) : List Bytes :=
  (entryNames value).map lowercase

/-- The files have different places on a file system that folds letters, and none is on the way to
another one. -/
structure CaseSafe (files : List PayloadFile) : Prop where
  distinct : (files.map fun file => lowercase file.relativePath).Nodup
  apart : ∀ file ∈ files, ∀ other ∈ files, file.relativePath ≠ other.relativePath →
    ¬foldedNames file.relativePath <+: foldedNames other.relativePath

/-- Where the way to one file leads to another one up to the case of letters, it is spelled as the
path of that file. -/
def SpelledAlike (files : List PayloadFile) : Prop :=
  ∀ file ∈ files, ∀ other ∈ files, file.relativePath ≠ other.relativePath →
    ∀ names, names <+: entryNames other.relativePath →
      names.map lowercase = foldedNames file.relativePath → joinSlash names = file.relativePath

/-- No way to a file is spelled as the path of another one. -/
theorem ValidPaths.not_spelled {files : List PayloadFile} (h : ValidPaths files)
    {file other : PayloadFile} (hfile : file ∈ files) (hother : other ∈ files)
    (hne : file.relativePath ≠ other.relativePath) {names : List Bytes} (hnil : names ≠ [])
    (hpre : names <+: entryNames other.relativePath) : joinSlash names ≠ file.relativePath := by
  intro heq
  obtain ⟨all, trailing, htext⟩ := relativeText_of_safe (h.safe other hother)
  rw [show entryNames other.relativePath = all from htext.segments_eq] at hpre
  by_cases hparent : trailing = false → names ≠ all
  · exact h.apart other hother _
      ((State.mem_parentPaths htext).mpr ⟨names, hnil, hpre, hparent, rfl⟩) file hfile heq.symm
  · -- the whole path, without a slash at its end, is the other file itself
    rw [Classical.not_imp, not_not] at hparent
    obtain ⟨hend, rfl⟩ := hparent
    refine hne (heq.symm.trans ?_)
    rw [htext.spelled, hend, if_neg Bool.false_ne_true, List.append_nil]

/-- An accepted payload is safe under case folding exactly if the ways to its files are spelled
alike: the look for a file on the way compares texts as they are. -/
theorem accepted_payload_case_safe_iff {files : List PayloadFile}
    (h : validateNormalizedFiles files = .ok ()) : CaseSafe files ↔ SpelledAlike files := by
  have hvalid := validPaths_of_validate h
  constructor
  · intro hsafe file hfile other hother hne names hpre hfold
    refine absurd ?_ (hsafe.apart file hfile other hother hne)
    rw [← hfold]
    exact hpre.map lowercase
  · refine fun hspelled => ⟨hvalid.folded, fun file hfile other hother hne hpre => ?_⟩
    obtain ⟨names, hnames, hfold⟩ := List.prefix_map_iff.mp hpre
    refine hvalid.not_spelled hfile hother hne ?_ hnames
      (hspelled file hfile other hother hne names hnames hfold.symm)
    rintro rfl
    obtain ⟨all, trailing, htext⟩ := relativeText_of_safe (hvalid.safe file hfile)
    have hnone : all.map lowercase = [] := by
      rw [← htext.segments_eq]
      exact hfold
    exact htext.nonempty (List.map_eq_nil_iff.mp hnone)

/-- Empty files with the given paths. -/
def emptyFiles (paths : List String) : List PayloadFile :=
  paths.map fun path => { relativePath := ascii path, sha256 := Usk.sha256 [] }

/-- A file beside a directory with another one. -/
theorem files_side_by_side_spelled_alike : SpelledAlike (emptyFiles ["a", "b/c"]) := by
  have hvalid : validateNormalizedFiles (emptyFiles ["a", "b/c"]) = .ok () :=
    toOption_eq_some.mp (by decide +kernel)
  exact (accepted_payload_case_safe_iff hvalid).mp ⟨by decide +kernel, by decide +kernel⟩

/-- The file `A` and a file in the directory `a` are accepted. -/
theorem file_above_folded_accepted :
    validateNormalizedFiles (emptyFiles ["A", "a/b"]) = .ok () ∧
      (normalizeFiles (emptyFiles ["a/b", "A"])).toOption.map (·.map PayloadFile.relativePath) =
        some [ascii "A", ascii "a/b"] ∧
      ¬CaseSafe (emptyFiles ["A", "a/b"]) := by
  refine ⟨toOption_eq_some.mp (by decide +kernel), by decide +kernel, fun h => ?_⟩
  exact h.apart _ List.mem_cons_self _ (List.mem_cons_of_mem _ List.mem_cons_self)
    (by decide +kernel) (by decide +kernel)

/-! ## Staging -/

/-- The two checks of a name differ in the colon, which `safe_relative` excludes before. -/
theorem safeSegment_of_safePart {part : Bytes} (h : safePart part = true)
    (hcolon : (0x3a : UInt8) ∉ part) : safeSegment part = true := by
  simp only [safePart, safeSegment, lowercase, Bool.and_eq_true, Bool.not_eq_true',
    Bool.or_eq_false_iff] at h ⊢
  exact ⟨⟨⟨⟨⟨h.1.1.1.1, by simpa using hcolon⟩, h.1.1.1.2⟩, h.1.1.2⟩, h.1.2⟩, h.2⟩

/-- Of what `safe_relative` accepts, `safe_relative_path` accepts what does not end in a slash. -/
theorem safeRelativePath_of_safe {value : Bytes} (h : safeRelative value = true) :
    safeRelativePath (Path.ofText value) = true ↔ value.getLast? ≠ some 0x2f := by
  obtain ⟨names, trailing, htext⟩ := relativeText_of_safe h
  have hnames : (Path.ofText value).names = names ++ if trailing then [[]] else [] :=
    htext.pathNames
  rw [safeRelativePath_iff, hnames, ne_eq, ← htext.trailing_iff]
  cases trailing with
  | true =>
    refine iff_of_false (fun hsafe => ?_) (not_not_intro rfl)
    exact safeSegment_ne_nil (hsafe.2.2 [] (List.mem_append_right _ (List.mem_singleton_self _)))
      rfl
  | false =>
    have hspelled : value = joinSlash names := by simpa using htext.spelled
    simp only [safeRelative, safeText, Bool.and_eq_true, Bool.not_eq_true', bne_iff_ne] at h
    refine iff_of_true ⟨?_, ?_, ?_⟩ Bool.false_ne_true
    · exact List.isEmpty_eq_false_iff.mpr h.1.1.1.1.1.1
    · exact beq_eq_false_iff_ne.mpr h.1.1.1.1.2
    · rw [if_neg Bool.false_ne_true, List.append_nil]
      intro n hn
      have hpart := (safe_of_safeParts h.2).2 n
      refine safeSegment_of_safePart (hpart ?_ (htext.named n hn).1) fun hc => ?_
      · rwa [hspelled, splitSlash_joinSlash htext.nonempty fun m hm => (htext.named m hm).2]
      · have hmem := mem_joinSlash_of_mem hc hn
        rw [← hspelled] at hmem
        simp [hmem] at h

theorem above_cons {name : Bytes} {rest : List Bytes} (hne : rest ≠ []) :
    above (name :: rest) = [name] :: (above rest).map (name :: ·) := by
  obtain ⟨next, more, rfl⟩ := List.exists_cons_of_ne_nil hne
  have hinits : (next :: more).inits = [] :: (next :: more).inits.drop 1 := rfl
  have hrest : ((next :: more).inits.drop 1).map (name :: ·) ≠ [] := by
    cases more <;> simp [List.inits]
  unfold above
  rw [List.inits, List.drop_one, List.tail_cons, hinits, List.map_cons,
    List.dropLast_cons_of_ne_nil hrest, List.map_dropLast]
  rfl

section Success

variable {message : String} {identity : List Bytes → UInt64 × UInt64}

theorem find_of_stands {path : List Bytes} (h : Stands tree path .directory) :
    ∃ device inode, tree.find path = some (.directory device inode) := by
  obtain ⟨node, hmem, hkind⟩ := h
  cases node with
  | directory device inode => exact ⟨device, inode, at_of_mem tree.distinct hmem⟩
  | file => cases hkind
  | link => cases hkind
  | other => cases hkind

theorem find_of_not_stands {path : List Bytes} (h : ∀ kind, ¬Stands tree path kind) :
    tree.find path = none := by
  cases hfind : tree.find path with
  | none => rfl
  | some node => exact absurd ⟨node, tree.mem_of_find hfind, rfl⟩ (h (kindOf node))

theorem exists_create_of_stands {front : List Bytes} {name : Bytes} (node : Node)
    (hfront : Stands tree front .directory) (hfree : ∀ kind, ¬Stands tree (front ++ [name]) kind) :
    ∃ made, tree.create (front ++ [name]) node = some made := by
  obtain ⟨device, inode, hfind⟩ := find_of_stands hfront
  refine tree.exists_create node (find_of_not_stands hfree) ⟨by simp, ?_⟩
  rw [List.dropLast_concat, hfind]
  rfl

/-- The directories above a file can be made where only directories are in the way. -/
theorem makeParents_ok : ∀ {names front : List Bytes} {tree : StagingTree},
    Stands tree front .directory →
    (∀ q kind, q ∈ above names → Stands tree (front ++ q) kind → kind = .directory) →
    ∃ made, makeParents message identity ((above names).map (front ++ ·)) tree = .ok made
  | [], _, tree, _, _ => ⟨tree, rfl⟩
  | [_], _, tree, _, _ => ⟨tree, rfl⟩
  | name :: next :: rest, front, tree, hfront, hway => by
    rw [above_cons (List.cons_ne_nil next rest)] at hway ⊢
    have hpaths : ([name] :: (above (next :: rest)).map (name :: ·)).map (front ++ ·) =
        (front ++ [name]) :: (above (next :: rest)).map (front ++ [name] ++ ·) := by
      simp
    have hnext : ∀ q kind, q ∈ above (next :: rest) → Stands tree (front ++ [name] ++ q) kind →
        kind = .directory := by
      intro q kind hq hstands
      refine hway (name :: q) kind (List.mem_cons_of_mem _ (List.mem_map_of_mem hq)) ?_
      rwa [List.append_assoc] at hstands
    rw [hpaths, makeParents]
    cases hfind : tree.find (front ++ [name]) with
    | none =>
      have hfree : ∀ kind, ¬Stands tree (front ++ [name]) kind := by
        rintro kind ⟨node, hmem, -⟩
        rw [show tree.find (front ++ [name]) = some node from at_of_mem tree.distinct hmem] at hfind
        cases hfind
      obtain ⟨made, hmade⟩ := exists_create_of_stands
        (.directory (identity (front ++ [name])).1 (identity (front ++ [name])).2) hfront hfree
      dsimp only
      rw [hmade]
      refine makeParents_ok ((stands_create hmade _ _).mpr (.inr ⟨rfl, rfl⟩)) ?_
      intro q kind hq hstands
      rcases (stands_create hmade _ _).mp hstands with hstands | ⟨-, rfl⟩
      · exact hnext q kind hq hstands
      · rfl
    | some node =>
      have hstands : Stands tree (front ++ [name]) (kindOf node) :=
        ⟨node, tree.mem_of_find hfind, rfl⟩
      have hkind := hway [name] _ List.mem_cons_self hstands
      cases node with
      | directory device inode => exact makeParents_ok hstands hnext
      | file => cases hkind
      | link => cases hkind
      | other => cases hkind

/-- Staging a file goes through where only directories are in the way and its place is free. -/
theorem stageFile_ok {tree : StagingTree} {staged : List Bytes} {path : Path} {content : Bytes}
    {request : StageRequest} (hroot : Stands tree [] .directory) (hsafe : safeRelativePath path =
      true)
    (hvalid : request.valid = true) (hcontent : request.content = .ok content)
    (hnew : lowercase path.generic ∉ staged.map lowercase)
    (hway : ∀ q kind, q <+: path.names → Stands tree q kind → kind = .directory ∧ q ≠ path.names) :
    ∃ made, stageFile identity staged path request tree = .ok made := by
  obtain ⟨hempty, habsolute, -⟩ := safeRelativePath_iff.mp hsafe
  obtain ⟨front, name, hnames⟩ := (List.eq_nil_or_concat' _).resolve_left
    (names_ne_nil_of_relative hempty habsolute)
  obtain ⟨made, hmade⟩ : ∃ made,
      makeParents request.messages.directory identity (above path.names) tree = .ok made := by
    have hmap : (above path.names).map ([] ++ ·) = above path.names := by simp
    rw [← hmap]
    refine makeParents_ok hroot fun q kind hq hstands => ?_
    exact (hway q kind (mem_inits_between.mp hq).2.1 hstands).1
  have hstands := makeParents_stands hmade
  have hfront : Stands made front .directory := by
    rw [hstands]
    by_cases hnil : front = []
    · exact .inl (hnil ▸ hroot)
    · refine .inr ⟨rfl, mem_inits_between.mpr ⟨hnil, hnames ▸ List.prefix_append _ _, ?_⟩⟩
      rw [hnames]
      exact fun heq => List.cons_ne_nil name [] (List.append_right_eq_self.mp heq.symm)
  have hfree : ∀ kind, ¬Stands made (front ++ [name]) kind := by
    intro kind h
    rw [← hnames, hstands] at h
    rcases h with h | ⟨-, h⟩
    · exact (hway _ kind (List.prefix_refl _) h).2 rfl
    · exact (mem_inits_between.mp h).2.2 rfl
  obtain ⟨opened, hopened⟩ := exists_create_of_stands (.file [] 1) hfront hfree
  obtain ⟨tree', hcreate⟩ := exists_create_of_stands (.file content 1) hfront hfree
  rw [← hnames] at hopened hcreate
  refine ⟨tree', ?_⟩
  simp only [stageFile, bind_eq_ok, demand_eq_ok]
  refine ⟨(), by rw [hsafe, hvalid]; rfl, (), by simpa using hnew, made, hmade, (), ?_, content,
    hcontent, ?_⟩
  · rw [hopened]
    rfl
  · rw [hcreate]
    rfl

/-- The condition under which the staging loop goes on with `files`. -/
structure Stageable (tree : StagingTree) (staged : List Bytes) (files : List PayloadFile) :
    Prop where
  root : Stands tree [] .directory
  accepted : ∀ file ∈ files, safeRelativePath (Path.ofText file.relativePath) = true
  valid : ∀ file ∈ files, (stageRequest file).valid = true
  delivered : ∀ file ∈ files, ∃ content, stagedContent file = .ok content
  fresh : ∀ file ∈ files, lowercase (Path.ofText file.relativePath).generic ∉ staged.map lowercase
  distinct : files.Pairwise fun left right =>
    lowercase (Path.ofText left.relativePath).generic ≠
      lowercase (Path.ofText right.relativePath).generic
  clear : ∀ file ∈ files, ∀ q kind, q <+: (Path.ofText file.relativePath).names →
    Stands tree q kind → kind = .directory ∧ q ≠ (Path.ofText file.relativePath).names
  apart : files.Pairwise fun left right =>
    ¬(Path.ofText left.relativePath).names <+: (Path.ofText right.relativePath).names ∧
      ¬(Path.ofText right.relativePath).names <+: (Path.ofText left.relativePath).names

theorem Stageable.step {tree made : StagingTree} {staged : List Bytes} {file : PayloadFile}
    {rest : List PayloadFile} {request : StageRequest} (h : Stageable tree staged (file :: rest))
    (hmade : stageFile identity staged (Path.ofText file.relativePath) request tree = .ok made) :
    Stageable made (staged ++ [(Path.ofText file.relativePath).generic]) rest := by
  obtain ⟨-, _, -, hstands⟩ := stageFile_stands hmade
  obtain ⟨hdistinct, hrest⟩ := List.pairwise_cons.mp h.distinct
  obtain ⟨hapart, hrest'⟩ := List.pairwise_cons.mp h.apart
  refine ⟨(hstands _ _).mpr (.inl h.root), fun other hother => h.accepted other (.tail _ hother),
    fun other hother => h.valid other (.tail _ hother),
    fun other hother => h.delivered other (.tail _ hother), fun other hother => ?_, hrest,
    fun other hother q kind hq hq' => ?_, hrest'⟩
  · rw [List.map_append, List.mem_append, List.map_singleton, List.mem_singleton]
    rintro (hmem | heq)
    · exact h.fresh other (.tail _ hother) hmem
    · exact hdistinct other hother heq.symm
  · rcases (hstands q kind).mp hq' with hq' | ⟨rfl, habove⟩ | ⟨rfl, -⟩
    · exact h.clear other (.tail _ hother) q kind hq hq'
    · refine ⟨rfl, ?_⟩
      rintro rfl
      exact (hapart other hother).2 (mem_inits_between.mp habove).2.1
    · exact absurd hq (hapart other hother).1

theorem stageFiles_ok : ∀ {files : List PayloadFile} {staged : List Bytes} {tree : StagingTree},
    Stageable tree staged files → ∃ made, stageFiles identity staged files tree = .ok made
  | [], _, tree, _ => ⟨tree, rfl⟩
  | file :: rest, staged, tree, h => by
    obtain ⟨content, hcontent⟩ := h.delivered file List.mem_cons_self
    have hrequest := (content_stageRequest file).trans hcontent
    obtain ⟨made, hmade⟩ := @stageFile_ok identity tree staged _ content _ h.root
      (h.accepted file List.mem_cons_self) (h.valid file List.mem_cons_self) hrequest
      (h.fresh file List.mem_cons_self) (h.clear file List.mem_cons_self)
    obtain ⟨found, hfound⟩ := stageFiles_ok (h.step hmade)
    refine ⟨found, ?_⟩
    simp only [stageFiles, bind_eq_ok]
    exact ⟨made, hmade, hfound⟩

end Success

theorem generic_of_safe {value : Bytes} (h : safeRelative value = true)
    (hp : safeRelativePath (Path.ofText value) = true) : (Path.ofText value).generic = value := by
  rw [(safe_generic hp).1, (names_of_safe h hp).1, joinSlash_splitSlash]

/-- Without a slash at the end of a path, an accepted payload can be staged in a new directory. -/
theorem ValidPaths.stageable {files : List PayloadFile} {device inode : UInt64}
    (h : ValidPaths files) (hend : ∀ file ∈ files, file.relativePath.getLast? ≠ some 0x2f)
    (hdelivered : ∀ file ∈ files, ∃ content, stagedContent file = .ok content) :
    Stageable (stagingRoot device inode) [] files := by
  have haccepted : ∀ file ∈ files, safeRelativePath (Path.ofText file.relativePath) = true :=
    fun file hfile => (safeRelativePath_of_safe (h.safe file hfile)).mpr (hend file hfile)
  have hgeneric : ∀ file ∈ files, (Path.ofText file.relativePath).generic = file.relativePath :=
    fun file hfile => generic_of_safe (h.safe file hfile) (haccepted file hfile)
  have hjoin : ∀ file ∈ files, joinSlash (Path.ofText file.relativePath).names =
    file.relativePath :=
    fun file hfile => by rw [← (safe_generic (haccepted file hfile)).1, hgeneric file hfile]
  have hnil : ∀ file ∈ files, (Path.ofText file.relativePath).names ≠ [] := by
    intro file hfile
    obtain ⟨hempty, habsolute, -⟩ := safeRelativePath_iff.mp (haccepted file hfile)
    exact names_ne_nil_of_relative hempty habsolute
  have hentry : ∀ file ∈ files,
      entryNames file.relativePath = (Path.ofText file.relativePath).names := by
    intro file hfile
    refine List.filter_eq_self.mpr fun n hn => ?_
    simpa using safeSegment_ne_nil ((safeRelativePath_iff.mp (haccepted file hfile)).2.2 n hn)
  have hpairs := List.pairwise_map.mp (List.nodup_iff_pairwise_ne.mp h.folded)
  refine ⟨stands_stagingRoot.mpr ⟨rfl, rfl⟩, haccepted, h.valid, hdelivered,
    fun _ _ => List.not_mem_nil, ?_, ?_, ?_⟩
  · refine List.Pairwise.imp_of_mem (fun hleft hright hne => ?_) hpairs
    rwa [hgeneric _ hleft, hgeneric _ hright]
  · intro file hfile q kind hq hstands
    obtain ⟨rfl, rfl⟩ := stands_stagingRoot.mp hstands
    exact ⟨rfl, (hnil file hfile).symm⟩
  · refine List.Pairwise.imp_of_mem (fun {left right} hleft hright hne => ?_) hpairs
    have hpaths : left.relativePath ≠ right.relativePath := fun heq => hne (congrArg lowercase heq)
    constructor
    · intro hpre
      rw [← hentry right hright] at hpre
      exact h.not_spelled hleft hright hpaths (hnil left hleft) hpre (hjoin left hleft)
    · intro hpre
      rw [← hentry left hleft] at hpre
      exact h.not_spelled hright hleft hpaths.symm (hnil right hright) hpre (hjoin right hright)

/-- The rename of the staging root to the target root takes everything below along. -/
def published (target : Path) (tree : StagingTree) : List (List Bytes × Node) :=
  tree.entries.map fun e => (target.segments ++ e.1, e.2)

theorem mem_published {value content : Bytes} {target : Path}
    (hp : safeRelativePath (Path.ofText value) = true)
    (h : Stands tree (Path.ofText value).names (.file content 1)) :
    ((target.join (Path.ofText value)).names, Node.file content 1) ∈ published target tree := by
  obtain ⟨node, hmem, hkind⟩ := h
  obtain ⟨hempty, habsolute, -⟩ := safeRelativePath_iff.mp hp
  rw [Path.names_join target hempty habsolute]
  refine List.mem_map.mpr ⟨_, hmem, ?_⟩
  cases node with
  | file =>
    cases hkind
    rfl
  | directory => cases hkind
  | link => cases hkind
  | other => cases hkind

/--
What `safe_relative` accepts can be staged and published at its place exactly if it does not end in
a slash. So with an accepted payload whose files can be read, staging goes through and puts every
file at its place exactly if no path of the payload ends in a slash.
-/
theorem plans_stageable_iff (identity : List Bytes → UInt64 × UInt64) (device inode : UInt64) :
    (∀ value content, safeRelative value = true →
      ((safeRelativePath (Path.ofText value) = true ∧
        ∃ tree, stageFile identity [] (Path.ofText value) (.ofBytes content)
            (stagingRoot device inode) = .ok tree ∧
          ∀ target : Path, ((target.join (Path.ofText value)).names, Node.file content 1) ∈
            published target tree) ↔
      value.getLast? ≠ some 0x2f)) ∧
    ∀ files, validateNormalizedFiles files = .ok () →
      (∀ file ∈ files, ∃ content, stagedContent file = .ok content) →
      ((∃ tree, stageFiles identity [] files (stagingRoot device inode) = .ok tree ∧
        ∀ file ∈ files, ∃ content, stagedContent file = .ok content ∧ ∀ target : Path,
          ((target.join (Path.ofText file.relativePath)).names, Node.file content 1) ∈
            published target tree) ↔
      ∀ file ∈ files, file.relativePath.getLast? ≠ some 0x2f) := by
  refine ⟨fun value content hsafe => ?_, fun files hvalid hdelivered => ?_⟩
  · refine ⟨fun h => (safeRelativePath_of_safe hsafe).mp h.1, fun hend => ?_⟩
    have hp := (safeRelativePath_of_safe hsafe).mpr hend
    obtain ⟨hempty, habsolute, -⟩ := safeRelativePath_iff.mp hp
    obtain ⟨tree, htree⟩ := @stageFile_ok identity (stagingRoot device inode) [] _ content
      (.ofBytes content) (stands_stagingRoot.mpr ⟨rfl, rfl⟩) hp rfl rfl List.not_mem_nil (by
        intro q kind _ hstands
        obtain ⟨rfl, rfl⟩ := stands_stagingRoot.mp hstands
        exact ⟨rfl, (names_ne_nil_of_relative hempty habsolute).symm⟩)
    obtain ⟨-, written, hwritten, hstaged⟩ := stageFile_stands htree
    cases hwritten
    have hstands := (hstaged _ _).mpr (.inr (.inr ⟨rfl, rfl⟩))
    exact ⟨hp, tree, htree, fun target => mem_published hp hstands⟩
  · have hpaths := validPaths_of_validate hvalid
    constructor
    · rintro ⟨tree, htree, -⟩ file hfile
      exact (safeRelativePath_of_safe (hpaths.safe file hfile)).mp
        ((stageFiles_stands htree).1 file hfile).1
    · intro hend
      obtain ⟨tree, htree⟩ := @stageFiles_ok identity _ _ _
        (@ValidPaths.stageable _ device inode hpaths hend hdelivered)
      refine ⟨tree, htree, fun file hfile => ?_⟩
      obtain ⟨hp, content, hcontent⟩ := (stageFiles_stands htree).1 file hfile
      refine ⟨content, hcontent, fun target => mem_published hp ?_⟩
      exact ((stageFiles_stands htree).2 _ _).mpr
        (.inr ⟨file, hfile, .inr ⟨rfl, content, hcontent, rfl⟩⟩)

/-- The directory of the second file is made on the way. -/
theorem nested_files_staged : ∃ tree,
    stageFiles (fun _ => (1, 2)) [] (emptyFiles ["a", "b/c"]) (stagingRoot 1 1) = .ok tree := by
  have hvalid : validateNormalizedFiles (emptyFiles ["a", "b/c"]) = .ok () :=
    toOption_eq_some.mp (by decide +kernel)
  obtain ⟨tree, htree, -⟩ := ((plans_stageable_iff (fun _ => (1, 2)) 1 1).2 _ hvalid
    (fun file hfile => exists_of_isOk ((by decide +kernel :
      ∀ file ∈ emptyFiles ["a", "b/c"], (stagedContent file).isOk = true) file hfile))).mpr
    (by decide +kernel)
  exact ⟨tree, htree⟩

/-- A payload with the path `a/` passes the validation and cannot be staged. -/
theorem trailing_slash_not_staged :
    safeRelative (ascii "a/") = true ∧ safeRelativePath (Path.ofText (ascii "a/")) = false ∧
      validateNormalizedFiles (emptyFiles ["a/"]) = .ok () ∧
      ∀ identity device inode tree,
        stageFiles identity [] (emptyFiles ["a/"]) (stagingRoot device inode) ≠ .ok tree := by
  refine ⟨by decide +kernel, by decide +kernel, toOption_eq_some.mp (by decide +kernel), ?_⟩
  intro identity device inode tree h
  exact absurd ((stageFiles_stands h).1 _ List.mem_cons_self).1 (by decide +kernel)

end Usk.Lifecycle
