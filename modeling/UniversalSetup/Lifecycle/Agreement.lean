import UniversalSetup.Lifecycle.Snapshot

/-!
# The three snapshot digests agree

Both walks turn a directory into the same list of entries, and so does a payload once it is staged.
A list with distinct paths has one sorted order, so the order of the directory iteration does not
matter, and neither does the order in which staging made the entries.
-/

namespace Usk.Lifecycle

open Json Replacement

variable {relative : Bytes} {node : Node} {part' part : Listing} {walk : TreeWalk}
  {entry : CanonicalPreimageEntry} {root : Path}

/-! ## Paths -/

/-- A name that a directory entry can have. -/
def EntryName (n : Bytes) : Prop :=
  n ≠ [] ∧ (0x2f : UInt8) ∉ n

theorem joinSlash_injective {ns ms : List Bytes} (hns : ∀ n ∈ ns, EntryName n)
    (hms : ∀ n ∈ ms, EntryName n) (hne : ns ≠ []) (hne' : ms ≠ [])
    (h : joinSlash ns = joinSlash ms) : ns = ms := by
  rw [← splitSlash_joinSlash hne fun n hn => (hns n hn).2, h,
    splitSlash_joinSlash hne' fun n hn => (hms n hn).2]

theorem mem_listingEntries :
    entry ∈ listingEntries part ↔ ∃ names node, (names, node) ∈ part ∧ names ≠ [] ∧
      entryOf (joinSlash names) node = some entry := by
  rw [listingEntries_eq_flatMap, List.mem_flatMap]
  constructor
  · rintro ⟨⟨names, node⟩, hmem, hentry⟩
    cases names with
    | nil => simp [listingEntries] at hentry
    | cons name names =>
      simp only [listingEntries, List.append_nil, Option.mem_toList] at hentry
      exact ⟨_, node, hmem, List.cons_ne_nil _ _, hentry⟩
  · rintro ⟨names, node, hmem, hne, hentry⟩
    refine ⟨_, hmem, ?_⟩
    cases names with
    | nil => exact absurd rfl hne
    | cons name names =>
      simpa only [listingEntries, List.append_nil, Option.mem_toList] using hentry

theorem entryOf_path (h : entryOf relative node = some entry) : entry.relativePath = relative := by
  cases node with
  | directory => cases h; rfl
  | file => cases h; rfl
  | link => cases h
  | other => cases h

/-- The entries of a tree have distinct relative paths. -/
theorem nodup_listingEntries : ∀ {part : Listing}, (part.map Prod.fst).Nodup →
    (∀ e ∈ part, ∀ n ∈ e.1, EntryName n) →
    ((listingEntries part).map (·.relativePath)).Nodup
  | [], _, _ => List.nodup_nil
  | ([], _) :: rest, hnd, hnames => by
    rw [listingEntries]
    exact nodup_listingEntries (List.nodup_cons.mp hnd).2
      fun e he => hnames e (List.mem_cons_of_mem _ he)
  | (name :: names, node) :: rest, hnd, hnames => by
    obtain ⟨hnot, hnd⟩ := List.nodup_cons.mp hnd
    obtain ⟨hhead, hrest⟩ := List.forall_mem_cons.mp hnames
    have ih := nodup_listingEntries hnd hrest
    rw [listingEntries]
    cases hentry : entryOf (joinSlash (name :: names)) node with
    | none => simpa using ih
    | some entry =>
      rw [Option.toList_some, List.singleton_append, List.map_cons, List.nodup_cons]
      refine ⟨fun hmem => ?_, ih⟩
      obtain ⟨other, hother, hpath⟩ := List.mem_map.mp hmem
      obtain ⟨names', node', hmem', hne', hentry'⟩ := mem_listingEntries.mp hother
      rw [entryOf_path hentry, entryOf_path hentry'] at hpath
      have heq := joinSlash_injective (hrest _ hmem') hhead hne' (List.cons_ne_nil _ _) hpath
      exact hnot (List.mem_map.mpr ⟨_, hmem', heq⟩)

/-! ## Budgets -/

/-- A measure of the entries of a directory, without the directory itself. -/
def weigh (measure : List Bytes → Node → Nat) (part : Listing) : Nat :=
  (part.map fun e => if e.1 = [] then 0 else measure e.1 e.2).sum

theorem weigh_perm (measure : List Bytes → Node → Nat) (h : part.Perm part') :
    weigh measure part = weigh measure part' :=
  (h.map _).sum_eq

@[simp] theorem weigh_root (measure : List Bytes → Node → Nat) (node : Node) (rest : Listing) :
    weigh measure (([], node) :: rest) = weigh measure rest := by
  simp [weigh]

@[simp] theorem weigh_cons (measure : List Bytes → Node → Nat) (name : Bytes) (names : List Bytes)
    (node : Node) (rest : Listing) : weigh measure ((name :: names, node) :: rest)
      = measure (name :: names) node + weigh measure rest := by
  simp [weigh]

def countFile (_ : List Bytes) : Node → Nat
  | .file _ _ => 1
  | _ => 0

def countDirectory (_ : List Bytes) : Node → Nat
  | .directory _ _ => 1
  | _ => 0

def countPathBytes (names : List Bytes) (_ : Node) : Nat :=
  (joinSlash names).length

def countBytes (_ : List Bytes) : Node → Nat
  | .file content _ => content.length
  | _ => 0

/-- An entry that both walks accept: a directory, or a file with one link that can be opened. -/
structure ManagedEntry (root : Path) (names : List Bytes) (node : Node) : Prop where
  named : ∀ n ∈ names, EntryName n
  safe : safeRelative (joinSlash names) = true
  short : (joinSlash names).length ≤ maximumRelativePathBytes
  kind : (∃ device inode, node = .directory device inode) ∨
    ∃ content, node = .file content 1 ∧ content.length ≤ maximumPreimageFileBytes ∧
      (root.join ⟨joinSlash names⟩).native.length < Disk.pathMax

/-- A directory tree of regular files and directories with safe names, within the budgets. -/
structure Managed (root : Path) (part : Listing) : Prop where
  rooted : ∃ device inode, ([], Node.directory device inode) ∈ part
  distinct : (part.map Prod.fst).Nodup
  entries : ∀ e ∈ part, e.1 ≠ [] → ManagedEntry root e.1 e.2
  files : weigh countFile part ≤ maximumLifecycleFiles
  directories : weigh countDirectory part ≤ maximumLifecycleDirectories
  paths : weigh countPathBytes part ≤ maximumClosurePathBytes
  bytes : weigh countBytes part ≤ maximumPreimageLogicalBytes

theorem Managed.perm (h : Managed root part) (hp : part'.Perm part) :
    Managed root part' where
  rooted := by
    obtain ⟨device, inode, hmem⟩ := h.rooted
    exact ⟨device, inode, hp.mem_iff.mpr hmem⟩
  distinct := (hp.map _).nodup_iff.mpr h.distinct
  entries e he := h.entries e (hp.mem_iff.mp he)
  files := by rw [weigh_perm _ hp]; exact h.files
  directories := by rw [weigh_perm _ hp]; exact h.directories
  paths := by rw [weigh_perm _ hp]; exact h.paths
  bytes := by rw [weigh_perm _ hp]; exact h.bytes

theorem Managed.root_isDirectory (h : Managed root part) :
    (at? part []).any Node.isDirectory = true := by
  obtain ⟨device, inode, hroot⟩ := h.rooted
  rw [at_of_mem h.distinct hroot]
  rfl

theorem Managed.names (h : Managed root part) : ∀ e ∈ part, ∀ n ∈ e.1, EntryName n := by
  intro e he n hn
  by_cases hroot : e.1 = []
  · rw [hroot] at hn
    exact absurd hn List.not_mem_nil
  · exact (h.entries e he hroot).named n hn

theorem sha256_length (content : Bytes) : (Usk.sha256 content).length = 64 := by
  have h := validSha256_sha256 content
  simp only [validSha256, Bool.and_eq_true, beq_iff_eq] at h
  exact h.1

/-- What an entry may cost in the index. -/
def entryCost : Nat := maximumRelativePathBytes + 64 + 128

/-- Where the walk over a managed tree stands, with `part` still ahead. -/
structure InBudget (walk : TreeWalk) (part : Listing) : Prop where
  counted : walk.index.length = walk.result.length + walk.directories
  files : walk.result.length + weigh countFile part ≤ maximumLifecycleFiles
  directories : walk.directories + weigh countDirectory part ≤ maximumLifecycleDirectories
  paths : walk.pathBytes + weigh countPathBytes part ≤ maximumClosurePathBytes
  bytes : walk.total + weigh countBytes part ≤ maximumPreimageLogicalBytes
  indexed : walk.indexBytes ≤ walk.index.length * entryCost

/-- The index cannot run out of memory before an entry budget is exhausted. -/
theorem charge_ok {used count : Nat} {entry : CanonicalPreimageEntry}
    (hpath : entry.relativePath.length ≤ maximumRelativePathBytes) (hsha : entry.sha256.length ≤ 64)
    (hused : used ≤ count * entryCost) (hcount : count < maximumPreimageEntries) :
    ∃ used', chargeCanonicalIndex used entry = .ok used' ∧ used' ≤ (count + 1) * entryCost := by
  have hlimit : count * entryCost + entryCost ≤ maximumCanonicalIndexBytes := by
    unfold entryCost maximumCanonicalIndexBytes maximumRelativePathBytes
    unfold maximumPreimageEntries maximumLifecycleFiles maximumLifecycleDirectories at hcount
    omega
  have hcost : entry.relativePath.length + entry.sha256.length + 128 ≤ entryCost := by
    unfold entryCost
    omega
  refine ⟨used + (entry.relativePath.length + entry.sha256.length + 128), ?_, ?_⟩
  · simp only [chargeCanonicalIndex, bind_eq_ok, demand_eq_ok]
    exact ⟨(), decide_eq_true (by omega), rfl⟩
  · rw [Nat.succ_mul]
    omega

theorem enter_ok (hcount : walk.index.length < maximumPreimageEntries) (hlink : linked node = false)
    (hsafe : safeRelative relative = true) (hshort : relative.length ≤ maximumRelativePathBytes)
    (hpaths : walk.pathBytes + relative.length ≤ maximumClosurePathBytes) :
    walk.enter relative node = .ok { walk with pathBytes := walk.pathBytes + relative.length } := by
  simp only [TreeWalk.enter, bind_eq_ok, demand_eq_ok]
  refine ⟨(), decide_eq_true hcount, (), by rw [hlink]; rfl, (), hsafe, (), ?_, rfl⟩
  rw [Bool.and_eq_true]
  exact ⟨decide_eq_true hshort, decide_eq_true (by omega)⟩

theorem addDirectory_ok {walk : TreeWalk} {relative : Bytes} {used : Nat}
    (hcount : walk.directories + 1 ≤ maximumLifecycleDirectories)
    (hcharge : chargeCanonicalIndex walk.indexBytes
      { relativePath := relative, directory := true } = .ok used) :
    walk.addDirectory relative = .ok { walk with
      index := walk.index ++ [{ relativePath := relative, directory := true }]
      indexBytes := used
      directories := walk.directories + 1 } := by
  simp only [TreeWalk.addDirectory, bind_eq_ok, demand_eq_ok]
  exact ⟨(), decide_eq_true hcount, used, hcharge, rfl⟩

theorem addFile_ok {root : Path} {walk : TreeWalk} {relative content : Bytes} {used : Nat}
    (hcount : walk.result.length < maximumPreimageFiles)
    (hopen : (root.join ⟨relative⟩).native.length < Disk.pathMax)
    (hsize : content.length ≤ maximumPreimageFileBytes)
    (htotal : walk.total + content.length ≤ maximumPreimageLogicalBytes)
    (hcharge : chargeCanonicalIndex walk.indexBytes
      { relativePath := relative, sha256 := Usk.sha256 content,
        sizeBytes := UInt64.ofNat content.length } = .ok used) :
    walk.addFile root relative content 1 = .ok { walk with
      result := walk.result ++ [⟨relative, Usk.sha256 content, UInt64.ofNat content.length⟩]
      index := walk.index ++ [{ relativePath := relative, sha256 := Usk.sha256 content,
                                sizeBytes := UInt64.ofNat content.length }]
      total := walk.total + content.length
      indexBytes := used } := by
  simp only [TreeWalk.addFile, bind_eq_ok, demand_eq_ok]
  refine ⟨(), decide_eq_true hcount, (), decide_eq_true hopen, (), rfl, (), ?_, used, hcharge, rfl⟩
  rw [Bool.and_eq_true]
  exact ⟨decide_eq_true hsize, decide_eq_true (by omega)⟩

/-- One round of the walk over a managed entry. -/
theorem walk_entry_ok {name : Bytes} {names : List Bytes} {rest : Listing}
    (hentry : ManagedEntry root (name :: names) node)
    (hw : InBudget walk ((name :: names, node) :: rest)) : ∃ entered next,
      walk.enter (joinSlash (name :: names)) node = .ok entered ∧
      TreeWalk.add root entered (joinSlash (name :: names)) node = .ok next ∧
      InBudget next rest := by
  obtain ⟨hcounted, hfiles, hdirectories, hpaths, hbytes, hindexed⟩ := hw
  rw [weigh_cons] at hfiles hdirectories hpaths hbytes
  rw [countPathBytes] at hpaths
  rcases hentry.kind with ⟨device, inode, rfl⟩ | ⟨content, rfl, hsize, hopen⟩
  · simp only [countFile, countDirectory, countBytes] at hfiles hdirectories hbytes
    have hcount : walk.index.length < maximumPreimageEntries := by
      unfold maximumPreimageEntries
      omega
    obtain ⟨used, hcharge, hused⟩ := @charge_ok walk.indexBytes walk.index.length
      { relativePath := joinSlash (name :: names), directory := true }
      hentry.short (Nat.zero_le _) hindexed hcount
    refine ⟨_, _, enter_ok hcount rfl hentry.safe hentry.short (by omega),
      addDirectory_ok (by show walk.directories + 1 ≤ _; omega) hcharge, ?_⟩
    constructor
    all_goals simp only [List.length_append, List.length_singleton]
    all_goals omega
  · simp only [countFile, countDirectory, countBytes] at hfiles hdirectories hbytes
    have hcount : walk.index.length < maximumPreimageEntries := by
      unfold maximumPreimageEntries
      omega
    obtain ⟨used, hcharge, hused⟩ := @charge_ok walk.indexBytes walk.index.length
      { relativePath := joinSlash (name :: names), sha256 := Usk.sha256 content,
        sizeBytes := UInt64.ofNat content.length }
      hentry.short (sha256_length content).le hindexed hcount
    refine ⟨_, _, enter_ok hcount rfl hentry.safe hentry.short (by omega),
      addFile_ok (by show walk.result.length < 4096; unfold maximumLifecycleFiles at hfiles; omega)
        hopen hsize (by show walk.total + content.length ≤ _; omega) hcharge, ?_⟩
    constructor
    all_goals simp only [List.length_append, List.length_singleton]
    all_goals omega

theorem walkTree_ok {root : Path} : ∀ {part : Listing} {walk : TreeWalk},
    (∀ e ∈ part, e.1 ≠ [] → ManagedEntry root e.1 e.2) → InBudget walk part →
    ∃ found, walkTree root part walk = .ok found
  | [], walk, _, _ => ⟨walk, rfl⟩
  | ([], node) :: rest, walk, hentries, hw => by
    obtain ⟨hcounted, hfiles, hdirectories, hpaths, hbytes, hindexed⟩ := hw
    rw [weigh_root] at hfiles hdirectories hpaths hbytes
    rw [walkTree]
    exact walkTree_ok (fun e he => hentries e (List.mem_cons_of_mem _ he))
      ⟨hcounted, hfiles, hdirectories, hpaths, hbytes, hindexed⟩
  | (name :: names, node) :: rest, walk, hentries, hw => by
    obtain ⟨hhead, hrest⟩ := List.forall_mem_cons.mp hentries
    obtain ⟨entered, next, henter, hadd, hnext⟩ := walk_entry_ok (hhead (List.cons_ne_nil _ _)) hw
    obtain ⟨found, hfound⟩ := walkTree_ok hrest hnext
    refine ⟨found, ?_⟩
    simp only [walkTree, bind_eq_ok]
    exact ⟨entered, henter, next, hadd, hfound⟩

theorem distinctNeighbours_of_nodup : ∀ {files : List PreimageFile},
    (files.map (·.relativePath)).Nodup → distinctNeighbours files = true
  | [], _ => rfl
  | [_], _ => rfl
  | left :: right :: rest, h => by
    obtain ⟨hnot, hnd⟩ := List.nodup_cons.mp h
    rw [distinctNeighbours, distinctNeighbours_of_nodup hnd, Bool.and_true, bne_iff_ne]
    exact fun heq => hnot (List.mem_map.mpr ⟨right, List.mem_cons_self, heq.symm⟩)

theorem preimageOf_sublist (entries : List CanonicalPreimageEntry) :
    ((entries.filterMap preimageOf).map (·.relativePath)).Sublist
      (entries.map (·.relativePath)) := by
  induction entries with
  | nil => exact .slnil
  | cons entry rest ih =>
    rw [List.filterMap_cons, preimageOf, List.map_cons]
    split
    · exact ih.cons _
    · next file hfile =>
      split at hfile
      · cases hfile
      · cases hfile
        exact ih.cons_cons _

/-- `read_complete_tree` returns on a managed tree. -/
theorem readCompleteTree_ok (h : Managed root part) :
    ∃ files, readCompleteTree root part = .ok (files, snapshotDigest (listingEntries part)) := by
  have hbudget : InBudget {} part := by
    refine ⟨rfl, ?_, ?_, ?_, ?_, Nat.zero_le _⟩
    · simpa using h.files
    · simpa using h.directories
    · simpa using h.paths
    · simpa using h.bytes
  obtain ⟨walk, hwalk⟩ := walkTree_ok h.entries hbudget
  have hfiles : (walk.result.map (·.relativePath)).Nodup := by
    rw [(walkTree_eq hwalk).2, List.nil_append]
    exact (nodup_listingEntries h.distinct h.names).sublist (preimageOf_sublist _)
  have hsorted : distinctNeighbours (walk.result.insertionSort
      fun left right => left.relativePath ≤ right.relativePath) = true := by
    refine distinctNeighbours_of_nodup ?_
    exact ((List.perm_insertionSort _ _).map _).nodup_iff.mpr hfiles
  refine ⟨walk.result.insertionSort fun left right => left.relativePath ≤ right.relativePath, ?_⟩
  simp only [readCompleteTree, bind_eq_ok, demand_eq_ok]
  refine ⟨(), h.root_isDirectory, walk, hwalk, (), hsorted, ?_⟩
  rw [canonicalPreimageSnapshotDigest_eq, (walkTree_eq hwalk).1]
  rfl

theorem snapshotEntries_ok {root : Path} : ∀ {part : Listing} {entries : List (Bytes × Value)}
    {bytes : Nat}, (∀ e ∈ part, e.1 ≠ [] → ManagedEntry root e.1 e.2) →
    entries.length + weigh countFile part + weigh countDirectory part ≤ maximumSnapshotEntries →
    bytes + weigh countBytes part ≤ maximumSnapshotBytes →
    ∃ found, snapshotEntries root part entries bytes = .ok found
  | [], entries, _, _, _, _ => ⟨entries, rfl⟩
  | ([], node) :: rest, entries, bytes, hentries, hcount, hbytes => by
    rw [weigh_root] at hcount hbytes
    rw [weigh_root] at hcount
    rw [snapshotEntries]
    exact snapshotEntries_ok (fun e he => hentries e (List.mem_cons_of_mem _ he)) hcount hbytes
  | (name :: names, node) :: rest, entries, bytes, hentries, hcount, hbytes => by
    obtain ⟨hhead, hrest⟩ := List.forall_mem_cons.mp hentries
    have hentry := hhead (List.cons_ne_nil _ _)
    rw [weigh_cons] at hcount hbytes
    rw [weigh_cons] at hcount
    have hnext : ∃ record, snapshotEntry root (joinSlash (name :: names)) bytes node = .ok record ∧
        record.2 = bytes + countBytes (name :: names) node ∧
        countFile (name :: names) node + countDirectory (name :: names) node = 1 := by
      rcases hentry.kind with ⟨device, inode, rfl⟩ | ⟨content, rfl, hsize, hopen⟩
      · exact ⟨_, rfl, rfl, rfl⟩
      · simp only [countBytes] at hbytes
        refine ⟨(fileRecord (joinSlash (name :: names)) (Usk.sha256 content)
          (UInt64.ofNat content.length), bytes + content.length), ?_, rfl, rfl⟩
        simp only [snapshotEntry, bind_eq_ok, demand_eq_ok]
        exact ⟨(), decide_eq_true hopen, (), rfl, (), decide_eq_true (by omega), rfl⟩
    obtain ⟨record, hrecord, htotal, hone⟩ := hnext
    obtain ⟨found, hfound⟩ := @snapshotEntries_ok root rest
      (entries ++ [(joinSlash (name :: names), record.1)]) record.2 hrest
      (by rw [List.length_append, List.length_singleton]; omega) (by omega)
    refine ⟨found, ?_⟩
    simp only [snapshotEntries, bind_eq_ok, demand_eq_ok]
    exact ⟨(), decide_eq_true (by omega), record, hrecord, hfound⟩

/-- `replacement_snapshot_digest` returns on a managed tree. -/
theorem replacementSnapshotDigest_ok (h : Managed root part) :
    replacementSnapshotDigest root part = .ok (snapshotDigest (listingEntries part)) := by
  have hfiles := h.files
  have hdirectories := h.directories
  obtain ⟨found, hfound⟩ := @snapshotEntries_ok root part [] 0 h.entries
    (by
      unfold maximumLifecycleFiles at hfiles
      unfold maximumLifecycleDirectories at hdirectories
      unfold maximumSnapshotEntries
      simp only [List.length_nil]
      omega)
    (by simpa [maximumSnapshotBytes, maximumPreimageLogicalBytes] using h.bytes)
  cases hdigest : replacementSnapshotDigest root part with
  | ok digest => rw [replacementSnapshotDigest_eq hdigest]
  | error message =>
    rw [replacementSnapshotDigest, h.root_isDirectory, hfound] at hdigest
    cases hdigest

/-! ## Staged payloads -/

/-- The entry of what stands at a path. -/
def kindEntry (relative : Bytes) : Kind → Option CanonicalPreimageEntry
  | .directory => some { relativePath := relative, directory := true }
  | .file content _ => some
      { relativePath := relative, sha256 := Usk.sha256 content,
        sizeBytes := UInt64.ofNat content.length }
  | .other => none

theorem entryOf_eq_kindEntry (relative : Bytes) (node : Node) :
    entryOf relative node = kindEntry relative (kindOf node) := by
  cases node <;> rfl

theorem mem_listingEntries_stands {tree : StagingTree} :
    entry ∈ listingEntries tree.entries ↔ ∃ names kind, Stands tree names kind ∧ names ≠ [] ∧
      kindEntry (joinSlash names) kind = some entry := by
  rw [mem_listingEntries]
  simp only [entryOf_eq_kindEntry]
  constructor
  · rintro ⟨names, node, hmem, hne, hentry⟩
    exact ⟨names, _, ⟨node, hmem, rfl⟩, hne, hentry⟩
  · rintro ⟨names, kind, ⟨node, hmem, rfl⟩, hne, hentry⟩
    exact ⟨names, node, hmem, hne, hentry⟩

theorem mem_payloadDirectories {files : List PayloadFile} {directory : Bytes} :
    directory ∈ payloadDirectories files ↔ ∃ file ∈ files,
      ∃ path ∈ above (Path.ofText file.relativePath).names, joinSlash path = directory := by
  rw [payloadDirectories, (List.perm_insertionSort _ _).mem_iff, List.mem_dedup, List.mem_flatMap]
  simp only [State.parentPaths, above, List.mem_map]

theorem mem_payloadEntries {files : List PayloadFile} :
    entry ∈ payloadEntries files ↔ ∃ file ∈ files,
      entry = { relativePath := file.relativePath, sha256 := file.sha256,
                sizeBytes := file.sizeBytes } ∨
      ∃ path ∈ above (Path.ofText file.relativePath).names,
        entry = { relativePath := joinSlash path, directory := true } := by
  rw [payloadEntries, List.mem_append, List.mem_map, List.mem_map]
  constructor
  · rintro (⟨file, hfile, rfl⟩ | ⟨directory, hdirectory, rfl⟩)
    · exact ⟨file, hfile, Or.inl rfl⟩
    · obtain ⟨file, hfile, path, hpath, rfl⟩ := mem_payloadDirectories.mp hdirectory
      exact ⟨file, hfile, Or.inr ⟨path, hpath, rfl⟩⟩
  · rintro ⟨file, hfile, rfl | ⟨path, hpath, rfl⟩⟩
    · exact Or.inl ⟨file, hfile, rfl⟩
    · exact Or.inr ⟨_, mem_payloadDirectories.mpr ⟨file, hfile, path, hpath, rfl⟩, rfl⟩

/-- The entries of a payload are all different. -/
theorem nodup_payloadEntries {files : List PayloadFile} (h : Normalized files) :
    (payloadEntries files).Nodup := by
  refine List.Nodup.append ?_ ?_ ?_
  · refine List.Pairwise.map _ (fun left right hlt heq => ?_) h.ordered
    rw [CanonicalPreimageEntry.mk.injEq] at heq
    rw [heq.1] at hlt
    exact ByteMap.key_lt_irrefl _ hlt
  · refine List.Nodup.map (fun left right heq => ?_) ?_
    · exact congrArg CanonicalPreimageEntry.relativePath heq
    · exact (List.perm_insertionSort _ _).nodup_iff.mpr (List.nodup_dedup _)
  · intro entry hfile hdirectory
    obtain ⟨file, -, rfl⟩ := List.mem_map.mp hfile
    obtain ⟨directory, -, heq⟩ := List.mem_map.mp hdirectory
    exact absurd (congrArg CanonicalPreimageEntry.directory heq) (by simp)

section Staged

variable {identity : List Bytes → UInt64 × UInt64} {device inode : UInt64}
  {files : List PayloadFile} {tree : StagingTree}

/-- A staged file stands under the names of its relative path. -/
theorem names_of_staged (hn : Normalized files)
    (h : stageFiles identity [] files (stagingRoot device inode) = .ok tree)
    {file : PayloadFile} (hfile : file ∈ files) :
    joinSlash (Path.ofText file.relativePath).names = file.relativePath ∧
      ∀ n ∈ (Path.ofText file.relativePath).names, EntryName n := by
  obtain ⟨hsafe, -⟩ := (stageFiles_stands h).1 file hfile
  obtain ⟨hnames, hne⟩ := names_of_safe (hn.safe file hfile) hsafe
  rw [hnames]
  exact ⟨joinSlash_splitSlash _, fun n hmem => ⟨hne n hmem, not_slash_of_mem_splitSlash hmem⟩⟩

theorem entryName_of_staged (hn : Normalized files)
    (h : stageFiles identity [] files (stagingRoot device inode) = .ok tree) :
    ∀ e ∈ tree.entries, ∀ n ∈ e.1, EntryName n := by
  intro e he n hmem
  have hstands : Stands tree e.1 (kindOf e.2) := ⟨e.2, he, rfl⟩
  rw [(stageFiles_stands h).2, stands_stagingRoot] at hstands
  rcases hstands with ⟨hroot, -⟩ | ⟨file, hfile, ⟨-, habove⟩ | ⟨hpath, -⟩⟩
  · rw [hroot] at hmem
    exact absurd hmem List.not_mem_nil
  · exact (names_of_staged hn h hfile).2 n ((mem_inits_between.mp habove).2.1.subset hmem)
  · rw [hpath] at hmem
    exact (names_of_staged hn h hfile).2 n hmem

/-- The staged tree has the entries of its payload. -/
theorem mem_staged (hn : Normalized files)
    (h : stageFiles identity [] files (stagingRoot device inode) = .ok tree)
    (entry : CanonicalPreimageEntry) :
    entry ∈ listingEntries tree.entries ↔ entry ∈ payloadEntries files := by
  obtain ⟨hcontent, hstands⟩ := stageFiles_stands h
  rw [mem_listingEntries_stands, mem_payloadEntries]
  simp only [hstands, stands_stagingRoot]
  constructor
  · rintro ⟨names, kind, ⟨hroot, -⟩ | ⟨file, hfile, hadds⟩, hne, hentry⟩
    · exact absurd hroot hne
    refine ⟨file, hfile, ?_⟩
    rcases hadds with ⟨rfl, habove⟩ | ⟨rfl, content, hread, rfl⟩
    · cases hentry
      exact Or.inr ⟨names, habove, rfl⟩
    · obtain ⟨hsha, hsize⟩ := hn.bound file hfile content hread
      rw [kindEntry, hsha, hsize, (names_of_staged hn h hfile).1] at hentry
      cases hentry
      exact Or.inl rfl
  · rintro ⟨file, hfile, rfl | ⟨path, hpath, rfl⟩⟩
    · obtain ⟨content, hread⟩ := (hcontent file hfile).2
      obtain ⟨hsha, hsize⟩ := hn.bound file hfile content hread
      have hpath := (names_of_staged hn h hfile).1
      refine ⟨_, .file content 1, Or.inr ⟨file, hfile, Or.inr ⟨rfl, content, hread, rfl⟩⟩, ?_, ?_⟩
      · intro hnil
        have hsafe := hn.safe file hfile
        rw [← hpath, hnil] at hsafe
        exact absurd hsafe (by decide)
      · rw [kindEntry, hsha, hsize, hpath]
    · exact ⟨path, .directory, Or.inr ⟨file, hfile, Or.inl ⟨rfl, hpath⟩⟩,
        (mem_inits_between.mp hpath).1, rfl⟩

/-- In whatever order a staged tree is listed, its digest is the digest of its payload. -/
theorem snapshotDigest_staged (hn : Normalized files)
    (h : stageFiles identity [] files (stagingRoot device inode) = .ok tree)
    (hp : part.Perm tree.entries) :
    snapshotDigest (listingEntries part) = payloadSnapshotDigest files := by
  have hnames : ∀ e ∈ part, ∀ n ∈ e.1, EntryName n := fun e he =>
    entryName_of_staged hn h e (hp.mem_iff.mp he)
  have hnd : ((listingEntries part).map (·.relativePath)).Nodup :=
    nodup_listingEntries ((hp.map _).nodup_iff.mpr tree.distinct) hnames
  have hmem : ∀ entry, entry ∈ listingEntries part ↔ entry ∈ payloadEntries files := fun entry =>
    (listingEntries_perm hp).mem_iff.trans (mem_staged hn h entry)
  rw [payloadSnapshotDigest_eq]
  exact snapshotDigest_perm
    ((List.perm_ext_iff_of_nodup (hnd.of_map _) (nodup_payloadEntries hn)).mpr hmem) hnd

end Staged

/-! ## Agreement -/

/-- A snapshot digest and the entries it was computed from. -/
inductive Digested : List CanonicalPreimageEntry → Bytes → Prop
  | replacement {root : Path} {part : Listing} {digest : Bytes}
      (h : replacementSnapshotDigest root part = .ok digest) : Digested (listingEntries part) digest
  | complete {root : Path} {part : Listing} {files : List PreimageFile} {digest : Bytes}
      (h : readCompleteTree root part = .ok (files, digest)) : Digested (listingEntries part) digest
  | payload (files : List PayloadFile) :
      Digested (payloadEntries files) (payloadSnapshotDigest files)

theorem plain_of_mem_listing : ∀ entry ∈ listingEntries part, entry.Plain := by
  intro entry hentry
  obtain ⟨names, node, -, -, hnode⟩ := mem_listingEntries.mp hentry
  exact entryOf_plain hnode

theorem plain_of_mem_payload {files : List PayloadFile} :
    ∀ entry ∈ payloadEntries files, entry.Plain := by
  intro entry hentry
  obtain ⟨file, -, rfl | ⟨path, -, rfl⟩⟩ := mem_payloadEntries.mp hentry
  · exact fun hd => absurd hd (by simp)
  · exact fun _ => ⟨rfl, rfl⟩

theorem Digested.spec {entries : List CanonicalPreimageEntry} {digest : Bytes}
    (h : Digested entries digest) :
    digest = snapshotDigest entries ∧ ∀ entry ∈ entries, entry.Plain := by
  cases h with
  | replacement h => exact ⟨replacementSnapshotDigest_eq h, plain_of_mem_listing⟩
  | complete h => exact ⟨readCompleteTree_eq h, plain_of_mem_listing⟩
  | payload files => exact ⟨payloadSnapshotDigest_eq files, plain_of_mem_payload⟩

/-- The three digests agree. Two walks over one managed tree, each in its own order, return one
digest. The digest of a normal payload is the one of the tree that staging makes of it. And where
SHA-256 tells the two documents apart, one digest means one set of entries. -/
theorem snapshot_digests_agree :
    (∀ (root : Path) (tree part part' : Listing), Managed root tree →
      part.Perm tree → part'.Perm tree →
      ∃ files digest, readCompleteTree root part = .ok (files, digest) ∧
        replacementSnapshotDigest root part' = .ok digest) ∧
    (∀ (identity : List Bytes → UInt64 × UInt64) (device inode : UInt64)
      (given files : List PayloadFile) (tree : StagingTree),
      normalizeFiles given = .ok files →
      stageFiles identity [] files (stagingRoot device inode) = .ok tree →
      ∀ (root : Path) (part : Listing), part.Perm tree.entries →
        (∀ found digest, readCompleteTree root part = .ok (found, digest) →
          digest = payloadSnapshotDigest files) ∧
        (∀ digest, replacementSnapshotDigest root part = .ok digest →
          digest = payloadSnapshotDigest files) ∧
        (Managed root tree.entries →
          (∃ found, readCompleteTree root part = .ok (found, payloadSnapshotDigest files)) ∧
          replacementSnapshotDigest root part = .ok (payloadSnapshotDigest files))) ∧
    (∀ (entries entries' : List CanonicalPreimageEntry) (digest : Bytes),
      Digested entries digest → Digested entries' digest →
      Set.InjOn Usk.sha256
        {canonical (snapshotValue entries), canonical (snapshotValue entries')} →
      ∀ entry, entry ∈ entries ↔ entry ∈ entries') := by
  refine ⟨?_, ?_, ?_⟩
  · intro root tree part part' hmanaged hpart hpart'
    obtain ⟨files, hfiles⟩ := readCompleteTree_ok (hmanaged.perm hpart)
    refine ⟨files, _, hfiles, ?_⟩
    rw [replacementSnapshotDigest_ok (hmanaged.perm hpart')]
    have hnd := nodup_listingEntries (hmanaged.perm hpart').distinct (hmanaged.perm hpart').names
    rw [snapshotDigest_perm (listingEntries_perm (hpart'.trans hpart.symm)) hnd]
  · intro identity device inode given files tree hgiven hstaged root part hpart
    have hdigest := snapshotDigest_staged (normalized_of_normalizeFiles hgiven) hstaged hpart
    refine ⟨fun found digest h => ?_, fun digest h => ?_, fun hmanaged => ?_⟩
    · rw [readCompleteTree_eq h, hdigest]
    · rw [replacementSnapshotDigest_eq h, hdigest]
    · rw [← hdigest]
      exact ⟨readCompleteTree_ok (hmanaged.perm hpart),
        replacementSnapshotDigest_ok (hmanaged.perm hpart)⟩
  · intro entries entries' digest h h' hsha
    obtain ⟨heq, hplain⟩ := h.spec
    obtain ⟨heq', hplain'⟩ := h'.spec
    exact mem_iff_of_snapshotDigest hplain hplain' hsha (heq.symm.trans heq')

/-- A payload of two files, one of them below a directory. -/
def editorPayload : List PayloadFile :=
  [{ relativePath := ascii "readme", bytes := ascii "hello" },
    { relativePath := ascii "bin/editor", bytes := ascii "run" }]

/-- The tree that staging makes of it, as two walks list it. -/
def editorTree : Listing :=
  [([], .directory 1 2), ([ascii "bin"], .directory 0 0),
    ([ascii "bin", ascii "editor"], .file (ascii "run") 1),
      ([ascii "readme"], .file (ascii "hello") 1)]

def editorTreeAgain : Listing :=
  [([], .directory 1 2), ([ascii "readme"], .file (ascii "hello") 1),
    ([ascii "bin"], .directory 0 0), ([ascii "bin", ascii "editor"], .file (ascii "run") 1)]

theorem editorPayload_staged : ∃ files tree, normalizeFiles editorPayload = .ok files ∧
    stageFiles (fun _ => (0, 0)) [] files (stagingRoot 1 2) = .ok tree ∧
    tree.entries = editorTree := by
  have hstaged : ((normalizeFiles editorPayload).bind fun files => stageFiles (fun _ => (0, 0)) []
      files (stagingRoot 1 2)).toOption.map (fun tree => tree.entries) = some editorTree := by
    decide +kernel
  obtain ⟨tree, htree, hentries⟩ := Option.map_eq_some_iff.mp hstaged
  obtain ⟨files, hfiles, htree⟩ := bind_eq_ok.mp (toOption_eq_some.mp htree)
  exact ⟨files, tree, hfiles, htree, hentries⟩

theorem managed_editorTree : Managed ⟨ascii "/r"⟩ editorTree := by
  refine ⟨⟨1, 2, List.mem_cons_self⟩, by decide, ?_, by decide, by decide, by decide, by decide⟩
  intro e he hne
  simp only [editorTree, List.mem_cons, List.not_mem_nil, or_false] at he
  rcases he with rfl | rfl | rfl | rfl
  · exact absurd rfl hne
  · exact ⟨by unfold EntryName; decide, by decide, by decide, .inl ⟨0, 0, rfl⟩⟩
  · exact ⟨by unfold EntryName; decide, by decide, by decide, .inr ⟨_, rfl, by decide, by decide⟩⟩
  · exact ⟨by unfold EntryName; decide, by decide, by decide, .inr ⟨_, rfl, by decide, by decide⟩⟩

/-- Two walks in different orders agree with the payload. -/
theorem editorTree_digests : ∃ files, normalizeFiles editorPayload = .ok files ∧
    (∃ found, readCompleteTree ⟨ascii "/r"⟩ editorTree = .ok (found, payloadSnapshotDigest files)) ∧
    replacementSnapshotDigest ⟨ascii "/r"⟩ editorTreeAgain = .ok (payloadSnapshotDigest files) := by
  obtain ⟨files, tree, hfiles, hstaged, htree⟩ := editorPayload_staged
  have h := snapshot_digests_agree.2.1 _ _ _ _ _ tree hfiles hstaged ⟨ascii "/r"⟩
  rw [htree] at h
  exact ⟨files, hfiles, ((h editorTree (List.Perm.refl _)).2.2 managed_editorTree).1,
    ((h editorTreeAgain (by decide +kernel)).2.2 managed_editorTree).2⟩

end Usk.Lifecycle
