import UniversalSetup.Base.FileTree
import UniversalSetup.Base.NormalPath
import UniversalSetup.Json.Schema

/-!
# The file system

A POSIX file system as the record functions use it: a tree of directories, files and links. Every
directory has an identity of its own, a pair of device and inode numbers, which it keeps when it is
moved. Links are never followed on the way to a path, since the callers refuse paths that cross one;
whether a link at the end of a path resolves is all that is known of it.
-/

namespace Usk

open Json (Result demand)

variable {maxBytes : Nat} {text name content : Bytes} {path : Path} {p : List Bytes}

/-- What stands at a path. -/
inductive Node where
  | directory (device inode : UInt64)
  | file (content : Bytes) (links : Nat)
  | link (resolves : Bool)
  | other
deriving DecidableEq

namespace Node

def isDirectory : Node → Bool
  | directory _ _ => true
  | _ => false

def identity : Node → Option (UInt64 × UInt64)
  | directory device inode => some (device, inode)
  | _ => none

end Node

instance (n : Bytes) : Decidable (PlainName n) :=
  decidable_of_iff (n ≠ [] ∧ (0x2f : UInt8) ∉ n ∧ n ≠ ascii "." ∧ n ≠ ascii "..")
    ⟨fun h => ⟨h.1, h.2.1, h.2.2.1, h.2.2.2⟩, fun h => ⟨h.1, h.2, h.3, h.4⟩⟩

/-- A file system. No two directories have the same identity. -/
structure Disk where
  tree : FileTree Bytes Node Node.isDirectory
  identified : (tree.entries.filterMap fun e => e.2.identity).Nodup
  plain : ∀ e ∈ tree.entries, ∀ n ∈ e.1, PlainName n

variable {disk disk' : Disk}

namespace Disk

/-- Entries of a disk, the directory of each of them among them. -/
abbrev Laid (entries : List (List Bytes × Node)) : Prop :=
  (entries.map Prod.fst).Nodup ∧
  (∀ e ∈ entries, e.1 = [] ∨ (at? entries e.1.dropLast).any Node.isDirectory = true) ∧
  (entries.filterMap fun e => e.2.identity).Nodup ∧ ∀ e ∈ entries, ∀ n ∈ e.1, PlainName n

def ofEntries (entries : List (List Bytes × Node)) (h : Laid entries) : Disk where
  tree := ⟨entries, h.1, closed_of_parents h.2.1⟩
  identified := h.2.2.1
  plain := h.2.2.2

/-! ## Changes -/

/-- A new file. -/
def addFile (disk : Disk) (p : List Bytes) (content : Bytes) : Option Disk :=
  match h : disk.tree.create p (.file content 1) with
  | none => none
  | some tree =>
    if hp : ∀ n ∈ p, PlainName n then
      some
        { tree := tree
          identified := by
            rw [(disk.tree.create_eq_some h).2.2, List.filterMap_append]
            exact (List.append_nil _).symm ▸ disk.identified
          plain := by
            intro e he
            rw [(disk.tree.create_eq_some h).2.2, List.mem_append, List.mem_singleton] at he
            rcases he with he | rfl
            · exact disk.plain e he
            · exact hp }
    else none

/-- A new directory with an identity that is not in use. -/
def addDirectory (disk : Disk) (p : List Bytes) (device inode : UInt64) : Option Disk :=
  match h : disk.tree.create p (.directory device inode) with
  | none => none
  | some tree =>
    if hp : (∀ n ∈ p, PlainName n) ∧
        (device, inode) ∉ disk.tree.entries.filterMap fun e => e.2.identity then
      some
        { tree := tree
          identified := by
            rw [(disk.tree.create_eq_some h).2.2, List.filterMap_append]
            exact disk.identified.append (List.nodup_singleton _)
              fun _ ha hb => hp.2 (List.mem_singleton.mp hb ▸ ha)
          plain := by
            intro e he
            rw [(disk.tree.create_eq_some h).2.2, List.mem_append, List.mem_singleton] at he
            rcases he with he | rfl
            · exact disk.plain e he
            · exact hp.1 }
    else none

theorem addFile_eq_some (h : disk.addFile p content = some disk') :
    disk.tree.create p (.file content 1) = some disk'.tree ∧ ∀ n ∈ p, PlainName n := by
  unfold addFile at h
  split at h
  · cases h
  · next tree htree =>
    split at h
    · next hp =>
      cases h
      exact ⟨htree, hp⟩
    · cases h

theorem addDirectory_eq_some {device inode : UInt64}
    (h : disk.addDirectory p device inode = some disk') :
    disk.tree.create p (.directory device inode) = some disk'.tree ∧ ∀ n ∈ p, PlainName n := by
  unfold addDirectory at h
  split at h
  · cases h
  · next tree htree =>
    split at h
    · next hp =>
      cases h
      exact ⟨htree, hp.1⟩
    · cases h

/-! ## Observations -/

/-- `PATH_MAX`, which counts the byte at the end of the string. -/
def pathMax : Nat := 4096

/-- What stands at an absolute path, a link at its end not followed. -/
def node (disk : Disk) (p : Path) : Result (Option Node) :=
  if p.native.length < pathMax then
    .ok ((disk.tree.find p.segments).filter fun node => !p.trailing || node.isDirectory)
  else .error "File name too long"

theorem node_of_find {p : Path} {node : Node} (hshort : p.native.length < pathMax)
    (hfind : disk.tree.find p.segments = some node)
    (hnode : p.trailing = false ∨ node.isDirectory = true) : disk.node p = .ok (some node) := by
  unfold Disk.node
  rw [if_pos hshort, hfind]
  rcases hnode with htrailing | hdirectory
  · rw [htrailing]
    rfl
  · simp [Option.filter, hdirectory]

theorem find_of_node {p : Path} {node : Node} (h : disk.node p = .ok (some node)) :
    disk.tree.find p.segments = some node := by
  unfold Disk.node at h
  split at h
  · exact (Option.filter_eq_some_iff.mp (Except.ok.inj h)).1
  · cases h

/-- `fs::exists`. -/
def existsAt (disk : Disk) (p : Path) : Result Bool := do
  match ← disk.node p with
  | none => pure false
  | some (.link resolves) => pure resolves
  | some _ => pure true

/-- `require_safe_directory`. The directories above are directories, since the tree has them. -/
def requireSafeDirectory (disk : Disk) (p : Path) : Result Unit := do
  match ← disk.node p with
  | some (.directory _ _) => pure ()
  | _ => .error "record root is not an existing safe directory"

/-- The bytes of a path in an error message. -/
def pathText (p : Path) : String :=
  String.ofList (p.native.map fun c => Char.ofNat c.toNat)

/-- `observe_directory_identity`. -/
def directoryIdentity (disk : Disk) (p : Path) : Result Bytes := do
  match ← disk.node p with
  | some (.directory device inode) => pure (hexId device ++ 0x3a :: hexId inode)
  | _ => .error ("transaction root must be an existing non-linked directory: " ++ pathText p)

/-- `read_stable_text`. A path that is too long is one that is missing. -/
def readStableText (disk : Disk) (p : Path) (maxBytes : Nat) : Result Bytes :=
  match disk.node p with
  | .ok (some (.file content links)) => do
    demand (links == 1) "multiply linked source archive is not stable enough for planning"
    demand (decide (content.length ≤ maxBytes)) "durable record exceeds read budget"
    pure content
  | .ok (some (.directory _ _)) => .error "local archive must be a regular non-link file"
  | .ok (some .other) => .error "local archive must be a regular non-link file"
  | _ => .error "local archive path is missing or is a symbolic link"

/-- What is read is the content of a file. -/
theorem readStableText_eq_ok {p : Path} (h : disk.readStableText p maxBytes = .ok text) :
    ∃ links, disk.tree.find p.segments = some (.file text links) := by
  unfold readStableText at h
  cases hnode : disk.node p with
  | error message =>
    rw [hnode] at h
    cases h
  | ok found =>
    rw [hnode] at h
    cases found with
    | none => cases h
    | some node =>
      cases node with
      | file content links =>
        simp only [Json.bind_eq_ok] at h
        obtain ⟨-, -, -, -, h⟩ := h
        cases h
        exact ⟨links, find_of_node hnode⟩
      | directory device inode => cases h
      | link resolves => cases h
      | other => cases h

/-- `fs::directory_iterator`: the names in a directory and what stands there. -/
def list (disk : Disk) (p : Path) : List (Bytes × Node) :=
  (disk.tree.part p.segments).filterMap fun e =>
    match e.1 with
    | [name] => some (name, e.2)
    | _ => none

/-- `create_directory_exclusive`, with the identity that the system gives to the directory. -/
def createDirectoryExclusive (disk : Disk) (parent : Path) (name : Bytes)
    (device inode : UInt64) : Result Disk := do
  disk.requireSafeDirectory parent
  demand (validIdentifier name) "record directory identifier is invalid"
  match if (parent.join ⟨name⟩).native.length < Disk.pathMax then
      disk.addDirectory (parent.segments ++ [name]) device inode else none with
  | none => .error "cannot exclusively create record directory"
  | some disk => pure disk

/-- `write_new_durable_text` without a failure of the host. -/
def writeNewDurableText (disk : Disk) (path : Path) (content : Bytes) : Result Disk := do
  disk.requireSafeDirectory path.parentPath.lexicallyNormal
  match if path.native.length < Disk.pathMax then
      disk.addFile path.lexicallyNormal.segments content else none with
  | none => .error "cannot no-clobber create durable record"
  | some disk => pure disk

/-! ## What a new file changes -/

theorem find_addFile (h : disk.addFile p content = some disk') (q : List Bytes) :
    disk'.tree.find q = if q = p then some (.file content 1) else disk.tree.find q :=
  disk.tree.find_create (addFile_eq_some h).1 q

theorem exists_addFile (content : Bytes) (hnone : disk.tree.find p = none)
    (hparent : disk.tree.HasParent p) (hplain : ∀ n ∈ p, PlainName n) :
    ∃ disk', disk.addFile p content = some disk' := by
  obtain ⟨tree, htree⟩ := disk.tree.exists_create (.file content 1) hnone hparent
  unfold addFile
  split
  · next hcreate => cases hcreate.symm.trans htree
  · rw [dif_pos hplain]
    exact ⟨_, rfl⟩

/-- A file in a directory is listed there last. -/
theorem list_addFile {directory : Path}
    (h : disk.addFile (directory.segments ++ [name]) content = some disk') :
    disk'.list directory = disk.list directory ++ [(name, .file content 1)] := by
  unfold list
  rw [FileTree.part_create_of_below _ (addFile_eq_some h).1, List.filterMap_append]
  rfl

theorem node_addFile (h : disk.addFile p content = some disk') {q : Path} (hq : q.segments ≠ p) :
    disk'.node q = disk.node q := by
  unfold node
  rw [find_addFile h, if_neg hq]

theorem requireSafeDirectory_eq_ok {p : Path} {u : Unit} :
    disk.requireSafeDirectory p = .ok u ↔
      ∃ device inode, disk.node p = .ok (some (.directory device inode)) := by
  simp only [requireSafeDirectory, Json.bind_eq_ok]
  constructor
  · rintro ⟨found, hnode, h⟩
    cases found with
    | none => cases h
    | some node =>
      cases node with
      | directory device inode => exact ⟨device, inode, hnode⟩
      | file content links => cases h
      | link resolves => cases h
      | other => cases h
  · rintro ⟨device, inode, hnode⟩
    exact ⟨_, hnode, rfl⟩

theorem mem_list {directory : Path} {node : Node} :
    (name, node) ∈ disk.list directory ↔
      (directory.segments ++ [name], node) ∈ disk.tree.entries := by
  unfold list FileTree.part
  rw [← mem_below, List.mem_filterMap]
  constructor
  · rintro ⟨⟨path, info⟩, hmem, h⟩
    split at h
    · next heq =>
      cases h
      cases heq
      exact hmem
    · cases h
  · intro hmem
    exact ⟨_, hmem, rfl⟩

theorem createDirectoryExclusive_eq_ok {parent : Path} {device inode : UInt64}
    (h : disk.createDirectoryExclusive parent name device inode = .ok disk') :
    disk.requireSafeDirectory parent = .ok () ∧ validIdentifier name = true ∧
      (parent.join ⟨name⟩).native.length < pathMax ∧
      disk.addDirectory (parent.segments ++ [name]) device inode = some disk' := by
  simp only [createDirectoryExclusive, Json.bind_eq_ok, Json.demand_eq_ok] at h
  obtain ⟨_, hsafe, -, hid, h⟩ := h
  by_cases hshort : (parent.join ⟨name⟩).native.length < pathMax
  · rw [if_pos hshort] at h
    cases hadd : disk.addDirectory (parent.segments ++ [name]) device inode with
    | none =>
      rw [hadd] at h
      cases h
    | some added =>
      rw [hadd] at h
      cases h
      exact ⟨hsafe, hid, hshort, rfl⟩
  · rw [if_neg hshort] at h
    cases h

theorem writeNewDurableText_eq_ok (h : disk.writeNewDurableText path content = .ok disk') :
    path.native.length < pathMax ∧
      disk.addFile path.lexicallyNormal.segments content = some disk' := by
  simp only [writeNewDurableText, Json.bind_eq_ok] at h
  obtain ⟨-, -, h⟩ := h
  by_cases hshort : path.native.length < pathMax
  · rw [if_pos hshort] at h
    cases hadd : disk.addFile path.lexicallyNormal.segments content with
    | none =>
      rw [hadd] at h
      cases h
    | some added =>
      rw [hadd] at h
      cases h
      exact ⟨hshort, rfl⟩
  · rw [if_neg hshort] at h
    cases h

theorem readStableText_addFile_of_ne (h : disk.addFile p content = some disk') {q : Path}
    (hq : q.segments ≠ p) (maxBytes : Nat) :
    disk'.readStableText q maxBytes = disk.readStableText q maxBytes := by
  unfold readStableText
  rw [node_addFile h hq]

/-- What was read before a file was added is read afterwards. -/
theorem readStableText_of_added (hadd : disk.addFile p content = some disk')
    (h : disk.readStableText path maxBytes = .ok text) :
    disk'.readStableText path maxBytes = .ok text := by
  rw [readStableText_addFile_of_ne hadd ?_, h]
  rintro rfl
  obtain ⟨links, hfind⟩ := readStableText_eq_ok h
  cases hfind.symm.trans (disk.tree.create_eq_some (addFile_eq_some hadd).1).1

/-- A new file is read if it is small enough. -/
theorem readStableText_addFile (h : disk.addFile p content = some disk')
    (hpath : NormalPath path p false) (hshort : path.native.length < pathMax) :
    disk'.readStableText path maxBytes = .ok text ↔ text = content ∧ content.length ≤ maxBytes := by
  have hfind : disk'.tree.find path.segments = some (.file content 1) := by
    rw [hpath.segments_eq, find_addFile h, if_pos rfl]
  unfold readStableText
  rw [node_of_find hshort hfind (.inl hpath.trailing_eq)]
  simp only [Json.bind_eq_ok, Json.demand_eq_ok, decide_eq_true_eq]
  constructor
  · rintro ⟨-, -, -, hlength, htext⟩
    cases htext
    exact ⟨rfl, hlength⟩
  · rintro ⟨rfl, hlength⟩
    exact ⟨(), rfl, (), hlength, rfl⟩

theorem hasParent_of_safe {directory : Path} {segments : List Bytes} {u : Unit}
    (hdirectory : NormalPath directory segments false)
    (hsafe : disk.requireSafeDirectory directory = .ok u) (name : Bytes) :
    disk.tree.HasParent (segments ++ [name]) := by
  obtain ⟨device, inode, hnode⟩ := requireSafeDirectory_eq_ok.mp hsafe
  have hfind := find_of_node hnode
  rw [hdirectory.segments_eq] at hfind
  refine ⟨by simp, ?_⟩
  rw [List.dropLast_concat, hfind]
  rfl

/-- A file that is added to a directory is one that was written there. -/
theorem writeNewDurableText_of_added {directory : Path} {segments : List Bytes}
    (hdirectory : NormalPath directory segments false)
    (hpath : NormalPath path (segments ++ [name]) false)
    (hsafe : disk.requireSafeDirectory directory = .ok ()) (hshort : path.native.length < pathMax)
    (hadd : disk.addFile (segments ++ [name]) content = some disk') :
    disk.writeNewDurableText path content = .ok disk' := by
  have hparent : path.parentPath = directory := by
    have hup := hpath.parent
    rw [if_neg Bool.false_ne_true, List.dropLast_concat] at hup
    exact hup.ext hdirectory
  simp only [writeNewDurableText, Json.bind_eq_ok]
  refine ⟨(), ?_, ?_⟩
  · rw [hparent, hdirectory.lexicallyNormal]
    exact hsafe
  · rw [if_pos hshort, hpath.lexicallyNormal, hpath.segments_eq, hadd]
    rfl

end Disk

end Usk
