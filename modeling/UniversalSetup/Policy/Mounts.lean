import UniversalSetup.Base.LastLargest
import UniversalSetup.Base.RelativePath
import UniversalSetup.Policy.Inspect

/-!
# The mount table

`filesystem_kind` looks a path up in the mount table that the kernel writes out as text. The kernel
writes blanks, tabs, newlines and backslashes in the names of a mount point as octal numbers, so
that a line can be cut at blanks. The loop compares the words of a line with the path as they are: a
line is read back only if nothing in its names is written as a number. Vertical tabs, form feeds and
carriage returns are not, but words end there, too.
-/

namespace Usk.Policy

variable {text : Bytes}

/-! ## Lines and words -/

/-- `std::isspace` in the classic locale. -/
def isSpace (c : UInt8) : Bool :=
  c == 0x20 || decide (0x09 ≤ c) && decide (c ≤ 0x0d)

/-- What `operator>>` reads out of a text, word by word. -/
def words (text : Bytes) : List Bytes :=
  (text.splitOnP isSpace).filter fun word => !word.isEmpty

/-- What `std::getline` reads out of a text, line by line. -/
def lines (text : Bytes) : List Bytes :=
  let parts := text.splitOnP (· == 0x0a)
  if parts.getLast? == some [] then parts.dropLast else parts

/-- The text up to the first separator of a line, and the text behind it. -/
def findSeparator : Bytes → Option (Bytes × Bytes)
  | [] => none
  | c :: rest =>
    if (ascii " - ").isPrefixOf (c :: rest) then some ([], rest.drop 2)
    else (findSeparator rest).map fun found => (c :: found.1, found.2)

/-- The mount point and the type in a line, for lines with a separator and five fields before it. -/
def readMount (line : Bytes) : Option (Bytes × Bytes) :=
  match findSeparator line with
  | none => none
  | some (left, right) =>
    match (words left)[4]? with
    | none => none
    | some mount => some (mount, (words right).headD [])

/-! ## The look-up -/

def mountContains (mount candidate : Bytes) : Bool :=
  candidate == mount || decide (mount.length < candidate.length) &&
    (if mount == ascii "/" then mount else mount ++ [0x2f]).isPrefixOf candidate

/-- One round of the loop. -/
def selectMount (candidate : Bytes) (selected : Bytes × Bytes) (line : Bytes) : Bytes × Bytes :=
  match readMount line with
  | none => selected
  | some mount => keepLarger (fun m => mountContains m.1 candidate) (·.1.length) selected mount

def remote : List Bytes :=
  ["9p", "afs", "ceph", "cifs", "fuse.sshfs", "nfs", "nfs4", "smb3"].map ascii

/-- The answer for a type. -/
def kindOfType (type : Bytes) : Bool × Bytes :=
  (!remote.contains type, ascii "linux_" ++ type)

/-- `filesystem_kind` on the text of the mount table, for an absolute path. -/
def filesystemKind (mounts : Option Bytes) (ancestor : Path) : Bool × Bytes :=
  match mounts with
  | none => (false, ascii "unproven")
  | some text =>
    let candidate := ancestor.lexicallyNormal.generic
    let selected := (lines text).foldl (selectMount candidate) ([], [])
    if selected.2.isEmpty then (false, ascii "unproven") else kindOfType selected.2

/-! ## What the kernel writes -/

/-- A character as a backslash and three octal digits. -/
def octal (c : UInt8) : Bytes :=
  [0x5c, 0x30 + c / 64, 0x30 + c / 8 % 8, 0x30 + c % 8]

def escape (text : Bytes) : Bytes :=
  text.flatMap fun c => if c == 0x20 || c == 0x09 || c == 0x0a || c == 0x5c then octal c else [c]

/-- A text that is one word. -/
def IsWord (text : Bytes) : Prop :=
  text ≠ [] ∧ ∀ c ∈ text, isSpace c = false

instance (text : Bytes) : Decidable (IsWord text) :=
  inferInstanceAs (Decidable (_ ∧ _))

/-- A mount of the table, without the type of its file system. `root` is the place in that file
system, `point` the names of the mount point. Behind the type come the source and options, which are
not read. -/
structure Mount where
  mountId : Nat
  parentId : Nat
  major : Nat
  minor : Nat
  root : Bytes
  point : List Bytes
  options : Bytes
  optional : List Bytes
  behind : Bytes
  rooted : root ≠ [] ∧ root ≠ ascii "-"
  named : ∀ n ∈ point, Path.Named n
  worded : ∀ field ∈ options :: optional, IsWord field ∧ field ≠ ascii "-"
  oneLine : (0x0a : UInt8) ∉ behind

/-- A type of file systems. -/
def FileSystemType : Type :=
  { type : Bytes // IsWord type }

/-- The absolute path of a mount point. -/
def pointText (point : List Bytes) : Bytes :=
  0x2f :: joinSlash point

def joinBlank : List Bytes → Bytes
  | [] => []
  | [field] => field
  | field :: next :: rest => field ++ 0x20 :: joinBlank (next :: rest)

namespace Mount

/-- The fields before the separator. -/
def fields (mount : Mount) : List Bytes :=
  decimal mount.mountId :: decimal mount.parentId ::
    (decimal mount.major ++ 0x3a :: decimal mount.minor) :: escape mount.root ::
    escape (pointText mount.point) :: mount.options :: mount.optional

def line (mount : Mount) (type : FileSystemType) : Bytes :=
  joinBlank mount.fields ++ ascii " - " ++ type.val ++ 0x20 :: mount.behind

/-- The word that is read as the mount point: the fifth of the line. -/
def word (mount : Mount) : Bytes :=
  ((words (escape mount.root) ++ words (escape (pointText mount.point)) ++
    mount.options :: mount.optional)[1]?).getD []

end Mount

/-- The text of the mount table. -/
def mountinfo (table : List (Mount × FileSystemType)) : Bytes :=
  table.flatMap fun e => e.1.line e.2 ++ [0x0a]

/-- `mount` is the topmost of the mounts whose mount point is the deepest one that contains the
names. -/
abbrev Topmost (names : List Bytes) (before : List Mount) (mount : Mount) (after : List Mount) :
    Prop :=
  LastLargest (fun m => m.point <+: names) (fun m => m.point.length) before mount after

/-- The line of a mount is read back: the word that is read as its mount point is its mount point.
-/
def Mount.ReadsBack (mount : Mount) : Prop :=
  mount.word = pointText mount.point

/-- The mount is taken for one that contains the text by a word that is not its mount point. -/
def Mount.Strays (candidate : Bytes) (mount : Mount) : Prop :=
  ¬mount.ReadsBack ∧ mountContains mount.word candidate = true

/-- No other mount strays with a word that is as long as the mount point, or longer than it in a
line before. -/
structure Undisturbed (candidate : Bytes) (before : List Mount) (mount : Mount)
    (after : List Mount) : Prop where
  before : ∀ m ∈ before, m.Strays candidate → m.word.length ≤ (pointText mount.point).length
  after : ∀ m ∈ after, m.Strays candidate → m.word.length < (pointText mount.point).length

/-- All white space in the names of a mount is of the kind that the kernel writes as numbers. -/
def Mount.Unbroken (mount : Mount) : Prop :=
  ∀ c ∈ mount.root ++ pointText mount.point, isSpace c = true → c = 0x20 ∨ c = 0x09 ∨ c = 0x0a

/-- `mount` is the last of those whose word is the longest one that contains the text. -/
abbrev Selected (candidate : Bytes) (before : List Mount) (mount : Mount) (after : List Mount) :
    Prop :=
  LastLargest (fun m => mountContains m.word candidate = true) (fun m => m.word.length)
    before mount after

/-! ## Reading the table back -/

theorem words_blank (left right : Bytes) :
    words (left ++ 0x20 :: right) = words left ++ words right := by
  rw [words, List.splitOnP_append_cons left right (by decide), List.filter_append]
  rfl

theorem words_of_isWord (h : IsWord text) : words text = [text] := by
  rw [words, List.splitOnP_eq_singleton h.2, List.filter_cons_of_pos (by simpa using h.1)]
  rfl

theorem words_ne_nil {c : UInt8} (hc : isSpace c = false) (rest : Bytes) :
    words (c :: rest) ≠ [] := by
  obtain ⟨first, parts, hsplit⟩ :=
    List.exists_cons_of_ne_nil (List.splitOnP_ne_nil isSpace rest)
  rw [words, List.splitOnP_cons_eq_if_modifyHead, if_neg (by rw [hc]; decide), hsplit,
    List.modifyHead_cons, List.filter_cons_of_pos rfl]
  exact List.cons_ne_nil _ _

theorem words_joinBlank : ∀ fields : List Bytes, words (joinBlank fields) = fields.flatMap words
  | [] => rfl
  | [field] => by
    rw [joinBlank, List.flatMap_singleton]
  | field :: next :: rest => by
    rw [joinBlank, words_blank, words_joinBlank (next :: rest)]
    rfl

theorem findSeparator_append : ∀ {field : Bytes}, (0x20 : UInt8) ∉ field → ∀ rest,
    findSeparator (field ++ rest) =
      (findSeparator rest).map fun found => (field ++ found.1, found.2)
  | [], _, rest => by simp
  | c :: field, h, rest => by
    rw [List.mem_cons, not_or] at h
    have hnot : ¬(ascii " - ").isPrefixOf (c :: (field ++ rest)) = true := by
      rw [List.isPrefixOf_iff_prefix]
      exact fun hpre => h.1 (List.cons_prefix_cons.mp hpre).1
    rw [List.cons_append, findSeparator, if_neg hnot, findSeparator_append h.2, Option.map_map]
    rfl

/-- No field but a dash makes a blank before it begin a separator. -/
theorem not_separator {field rest : Bytes} (hblank : (0x20 : UInt8) ∉ field)
    (hdash : field ≠ ascii "-") :
    ¬(ascii " - ").isPrefixOf (0x20 :: (field ++ 0x20 :: rest)) = true := by
  rw [List.isPrefixOf_iff_prefix]
  intro hpre
  have hpre : [0x2d, 0x20] <+: field ++ 0x20 :: rest := (List.cons_prefix_cons.mp hpre).2
  cases field with
  | nil => exact absurd (List.cons_prefix_cons.mp hpre).1 (by decide)
  | cons c more =>
    obtain ⟨hc, hpre⟩ := List.cons_prefix_cons.mp hpre
    cases more with
    | nil => exact hdash (congrArg (fun c => [c]) hc.symm)
    | cons d more =>
      have hd := (List.cons_prefix_cons.mp hpre).1
      exact hblank (hd ▸ List.mem_cons_of_mem c List.mem_cons_self)

theorem findSeparator_joinBlank (right : Bytes) : ∀ {fields : List Bytes}, fields ≠ [] →
    (∀ field ∈ fields, (0x20 : UInt8) ∉ field ∧ field ≠ ascii "-") →
    findSeparator (joinBlank fields ++ (ascii " - " ++ right)) = some (joinBlank fields, right)
  | [], h, _ => absurd rfl h
  | [field], _, h => by
    have hsep : findSeparator (ascii " - " ++ right) = some ([], right) := rfl
    rw [joinBlank, findSeparator_append (h field List.mem_cons_self).1, hsep, Option.map_some,
      List.append_nil]
  | field :: next :: rest, _, h => by
    have ih := findSeparator_joinBlank right (List.cons_ne_nil next rest)
      fun f hf => h f (List.mem_cons_of_mem _ hf)
    have hnext := h next (List.mem_cons_of_mem _ List.mem_cons_self)
    obtain ⟨tail, htail⟩ : ∃ tail, joinBlank (next :: rest) ++ (ascii " - " ++ right) =
        next ++ 0x20 :: tail := by
      cases rest with
      | nil => exact ⟨ascii "- " ++ right, rfl⟩
      | cons more rest =>
        exact ⟨_, by rw [joinBlank, List.append_assoc, List.cons_append]⟩
    rw [joinBlank, List.append_assoc, findSeparator_append (h field List.mem_cons_self).1,
      List.cons_append, findSeparator, htail, if_neg (not_separator hnext.1 hnext.2), ← htail, ih]
    rfl

/-- Neither a blank nor a newline is left in an escaped text. -/
theorem escape_unbroken (text : Bytes) : ∀ c ∈ escape text, c ≠ 0x20 ∧ c ≠ 0x0a := by
  have hoctal : ∀ d ∈ [0x20, 0x09, 0x0a, 0x5c], ∀ c ∈ octal d, c ≠ 0x20 ∧ c ≠ 0x0a := by
    decide +kernel
  intro c hc
  obtain ⟨d, -, hd⟩ := List.mem_flatMap.mp hc
  split at hd
  · next hspecial => exact hoctal d (by simpa [or_assoc] using hspecial) c hd
  · next hplain =>
    rw [← List.mem_singleton.mp hd] at hplain
    exact ⟨fun heq => hplain (by rw [heq]; decide), fun heq => hplain (by rw [heq]; decide)⟩

theorem IsWord.unbroken (h : IsWord text) : ∀ c ∈ text, c ≠ 0x20 ∧ c ≠ 0x0a := by
  intro c hc
  have hspace := h.2 c hc
  refine ⟨?_, ?_⟩
  · rintro rfl
    cases hspace
  · rintro rfl
    cases hspace

theorem isSpace_of_isDigit {c : UInt8} (h : isDigit c = true) : isSpace c = false := by
  simp only [isDigit, isSpace, Bool.and_eq_true, decide_eq_true_eq, UInt8.le_iff_toNat_le,
    Bool.or_eq_false_iff, beq_eq_false_iff_ne, Bool.and_eq_false_iff,
    decide_eq_false_iff_not] at h ⊢
  have h30 : (0x30 : UInt8).toNat = 48 := rfl
  have h0d : (0x0d : UInt8).toNat = 13 := rfl
  refine ⟨?_, .inr (by omega)⟩
  rintro rfl
  exact absurd h.1 (by decide)

theorem isWord_decimal (n : Nat) : IsWord (decimal n) :=
  ⟨decimal_ne_nil n, fun _ hc => isSpace_of_isDigit (isDigit_of_mem_decimal hc)⟩

theorem isWord_device (major minor : Nat) : IsWord (decimal major ++ 0x3a :: decimal minor) := by
  refine ⟨List.append_ne_nil_of_right_ne_nil _ (List.cons_ne_nil _ _), ?_⟩
  refine List.forall_mem_append.mpr ⟨(isWord_decimal major).2, List.forall_mem_cons.mpr ⟨rfl, ?_⟩⟩
  exact (isWord_decimal minor).2

theorem decimal_ne_dash (n : Nat) (rest : Bytes) : decimal n ++ rest ≠ ascii "-" := by
  intro heq
  obtain ⟨c, more, hcons⟩ := List.exists_cons_of_ne_nil (decimal_ne_nil n)
  have hdigit := isDigit_of_mem_decimal (hcons ▸ List.mem_cons_self : c ∈ decimal n)
  rw [hcons] at heq
  rw [(List.cons.inj heq).1] at hdigit
  exact absurd hdigit (by decide)

theorem escape_ne_dash (h : text ≠ ascii "-") : escape text ≠ ascii "-" := by
  intro heq
  cases text with
  | nil => cases heq
  | cons c rest =>
    rw [escape, List.flatMap_cons] at heq
    split at heq
    · exact absurd (List.cons.inj heq).1 (by decide)
    · obtain ⟨hc, hrest⟩ := List.cons.inj heq
      cases rest with
      | nil => exact h (congrArg (fun c => [c]) hc)
      | cons d more =>
        rw [List.flatMap_cons, List.append_eq, List.nil_append] at hrest
        split at hrest
        · cases hrest
        · cases hrest

namespace Mount

theorem fields_unbroken (mount : Mount) :
    ∀ field ∈ mount.fields, (∀ c ∈ field, c ≠ 0x20 ∧ c ≠ 0x0a) ∧ field ≠ ascii "-" := by
  have hdecimal : ∀ n, (∀ c ∈ decimal n, c ≠ 0x20 ∧ c ≠ 0x0a) ∧ decimal n ≠ ascii "-" := fun n =>
    ⟨(isWord_decimal n).unbroken, by simpa using decimal_ne_dash n []⟩
  have hworded : ∀ field ∈ mount.options :: mount.optional,
      (∀ c ∈ field, c ≠ 0x20 ∧ c ≠ 0x0a) ∧ field ≠ ascii "-" := fun field hfield =>
    ⟨(mount.worded field hfield).1.unbroken, (mount.worded field hfield).2⟩
  simp only [fields, List.forall_mem_cons] at hworded ⊢
  refine ⟨hdecimal _, hdecimal _, ⟨(isWord_device _ _).unbroken, decimal_ne_dash _ _⟩,
    ⟨escape_unbroken _, escape_ne_dash mount.rooted.2⟩, ⟨escape_unbroken _, escape_ne_dash ?_⟩,
      hworded⟩
  exact fun heq => absurd (List.cons.inj heq).1 (by decide)

theorem joinBlank_unbroken : ∀ {fields : List Bytes}, (∀ field ∈ fields, (0x0a : UInt8) ∉ field) →
    (0x0a : UInt8) ∉ joinBlank fields
  | [], _ => List.not_mem_nil
  | [field], h => h field List.mem_cons_self
  | field :: next :: rest, h => by
    rw [joinBlank, List.mem_append, List.mem_cons, not_or, not_or]
    exact ⟨h field List.mem_cons_self, by decide,
      joinBlank_unbroken fun f hf => h f (List.mem_cons_of_mem _ hf)⟩

theorem newline_not_mem_line (mount : Mount) (type : FileSystemType) :
    (0x0a : UInt8) ∉ mount.line type := by
  simp only [line, List.mem_append, List.mem_cons, not_or]
  refine ⟨⟨⟨joinBlank_unbroken fun field hfield hc => ?_, by decide⟩, fun hc => ?_⟩, by decide,
    mount.oneLine⟩
  · exact ((mount.fields_unbroken field hfield).1 _ hc).2 rfl
  · exact (type.2.unbroken _ hc).2 rfl

theorem words_fields (mount : Mount) : words (joinBlank mount.fields) =
    decimal mount.mountId :: decimal mount.parentId ::
      (decimal mount.major ++ 0x3a :: decimal mount.minor) ::
      (words (escape mount.root) ++ words (escape (pointText mount.point)) ++
        mount.options :: mount.optional) := by
  have hworded : (mount.options :: mount.optional).flatMap words =
    mount.options :: mount.optional := by
    rw [← List.flatMap_singleton' (mount.options :: mount.optional), List.flatMap_assoc]
    refine List.flatMap_congr fun field hfield => ?_
    rw [List.flatMap_singleton, words_of_isWord (mount.worded field hfield).1]
  rw [words_joinBlank, fields, List.flatMap_cons, List.flatMap_cons, List.flatMap_cons,
    List.flatMap_cons, List.flatMap_cons, hworded, words_of_isWord (isWord_decimal _),
    words_of_isWord (isWord_decimal _), words_of_isWord (isWord_device _ _), List.append_assoc]
  rfl

theorem readMount_line (mount : Mount) (type : FileSystemType) :
    readMount (mount.line type) = some (mount.word, type.val) := by
  have hseparator : findSeparator (mount.line type) =
      some (joinBlank mount.fields, type.val ++ 0x20 :: mount.behind) := by
    rw [line, List.append_assoc, List.append_assoc]
    refine findSeparator_joinBlank _ (List.cons_ne_nil _ _) fun field hfield => ⟨fun hc => ?_, ?_⟩
    · exact ((mount.fields_unbroken field hfield).1 _ hc).1 rfl
    · exact (mount.fields_unbroken field hfield).2
  obtain ⟨first, rest, hpoint⟩ : ∃ first rest, words (escape (pointText mount.point)) =
    first :: rest := List.exists_cons_of_ne_nil (words_ne_nil (by decide) _)
  rw [readMount, hseparator]
  dsimp only
  rw [mount.words_fields, words_blank, words_of_isWord type.2, word, hpoint]
  cases words (escape mount.root) with
  | nil =>
    cases rest with
    | nil => rfl
    | cons second rest => rfl
  | cons part parts =>
    cases parts with
    | nil => rfl
    | cons second parts => rfl

end Mount

theorem lines_mountinfo (table : List (Mount × FileSystemType)) :
    lines (mountinfo table) = table.map fun e => e.1.line e.2 := by
  have hsplit : (mountinfo table).splitOnP (· == 0x0a) = (table.map fun e => e.1.line e.2) ++
    [[]] := by
    unfold mountinfo
    induction table with
    | nil => rfl
    | cons e rest ih =>
      have hline : (e.1.line e.2).splitOnP (· == 0x0a) = [e.1.line e.2] :=
        List.splitOnP_eq_singleton fun c hc => beq_eq_false_iff_ne.mpr fun heq =>
          e.1.newline_not_mem_line e.2 (heq ▸ hc)
      rw [List.flatMap_cons, List.append_assoc, List.singleton_append,
        List.splitOnP_append_cons _ _ (by decide), ih, hline]
      rfl
  unfold lines
  dsimp only
  rw [hsplit, List.getLast?_concat, if_pos (by decide), List.dropLast_concat]

/-- What is read of an entry of the table. -/
def readEntry (e : Mount × FileSystemType) : Bytes × Bytes :=
  (e.1.word, e.2.val)

/-- The loop over the lines of the table chooses among the words of its entries. -/
theorem foldl_lines (candidate : Bytes) (table : List (Mount × FileSystemType)) :
    (lines (mountinfo table)).foldl (selectMount candidate) ([], []) =
      (table.map readEntry).foldl
        (keepLarger (fun m => mountContains m.1 candidate) (·.1.length)) ([], []) := by
  rw [lines_mountinfo, List.foldl_map, List.foldl_map]
  simp only [selectMount, Mount.readMount_line, readEntry]

def ext4 : FileSystemType :=
  ⟨ascii "ext4", by decide +kernel⟩

def nfs : FileSystemType :=
  ⟨ascii "nfs", by decide +kernel⟩

/-- The answer is the type of a mount, whatever the types in the table are, exactly if that mount is
the selected one. -/
theorem filesystemKind_eq_iff {path : Path} {before after : List Mount} {mount : Mount} :
    (∀ earlier later type, earlier.map Prod.fst = before → later.map Prod.fst = after →
      filesystemKind (some (mountinfo (earlier ++ (mount, type) :: later))) path =
        kindOfType type.val) ↔
    Selected path.lexicallyNormal.generic before mount after := by
  constructor
  · intro h
    -- one remote mount among local ones is found only if it is the selected one
    have hfirst (mounts : List Mount) : (mounts.map (·, ext4)).map Prod.fst = mounts := by
      rw [List.map_map]
      exact List.map_id mounts
    have hkind := h (before.map (·, ext4)) (after.map (·, ext4)) nfs (hfirst _) (hfirst _)
    unfold filesystemKind at hkind
    dsimp only at hkind
    rw [foldl_lines] at hkind
    rcases @foldl_lastLargest _ (fun m : Bytes × Bytes =>
      mountContains m.1 path.lexicallyNormal.generic) (·.1.length) ([], []) rfl
      ((before.map (·, ext4) ++ (mount, nfs) :: after.map (·, ext4)).map readEntry) with
      ⟨-, hfold⟩ | ⟨left, chosen, right, hsplit, hlargest, hfold⟩
    · rw [hfold] at hkind
      exact absurd hkind (by decide)
    · rw [hfold] at hkind
      have hne : chosen.2 ≠ ascii "ext4" := by
        intro heq
        rw [heq] at hkind
        exact absurd hkind (by decide)
      have hnot (mounts : List Mount) : chosen ∉ (mounts.map (·, ext4)).map readEntry := by
        intro hmem
        simp only [List.map_map, List.mem_map, Function.comp_apply, readEntry] at hmem
        obtain ⟨m, -, rfl⟩ := hmem
        exact hne rfl
      rw [List.map_append, List.map_cons,
        List.append_cons_inj_of_notMem (hnot before) (hnot after)] at hsplit
      obtain ⟨rfl, rfl, rfl⟩ := hsplit
      have htable := lastLargest_map.mp hlargest
      rw [← hfirst before, ← hfirst after]
      exact (@lastLargest_map _ _ _ _ Prod.fst _ _ (mount, nfs)).mpr htable
  · rintro h earlier later type rfl rfl
    have hread : LastLargest
        (fun m : Bytes × Bytes => mountContains m.1 path.lexicallyNormal.generic = true)
          (·.1.length)
        (earlier.map readEntry) (readEntry (mount, type)) (later.map readEntry) :=
      lastLargest_map.mpr ((@lastLargest_map _ _ _ _ Prod.fst earlier later (mount, type)).mp h)
    have hfold := @LastLargest.foldl_eq _ (fun m => mountContains m.1 path.lexicallyNormal.generic)
      _ _ _ _ ([], []) rfl hread
    unfold filesystemKind
    dsimp only
    rw [foldl_lines, List.map_append, List.map_cons, hfold, if_neg]
    · rfl
    · simpa [readEntry] using type.2.1

/-! ## Plain names -/

/-- A name that is written as it is and cut nowhere. -/
def PlainText (text : Bytes) : Prop :=
  ∀ c ∈ text, isSpace c = false ∧ c ≠ 0x5c

theorem escape_plain (h : PlainText text) : escape text = text := by
  unfold escape
  conv_rhs => rw [← List.flatMap_singleton' text]
  refine List.flatMap_congr fun c hc => if_neg fun hspecial => ?_
  simp only [Bool.or_eq_true, beq_iff_eq, or_assoc] at hspecial
  rcases hspecial with rfl | rfl | rfl | rfl
  · cases (h _ hc).1
  · cases (h _ hc).1
  · cases (h _ hc).1
  · exact (h _ hc).2 rfl

/-- The root and the mount point of a mount have plain names. -/
def Mount.Plain (mount : Mount) : Prop :=
  PlainText mount.root ∧ PlainText (pointText mount.point)

theorem Mount.Plain.readsBack {mount : Mount} (h : mount.Plain) : mount.ReadsBack := by
  have hroot : IsWord mount.root := ⟨mount.rooted.1, fun c hc => (h.1 c hc).1⟩
  have hpoint : IsWord (pointText mount.point) := ⟨List.cons_ne_nil _ _, fun c hc => (h.2 c hc).1⟩
  rw [Mount.ReadsBack, Mount.word, escape_plain h.1, escape_plain h.2, words_of_isWord hroot,
    words_of_isWord hpoint]
  rfl

theorem joinSlash_ne_nil {point : List Bytes} (hne : point ≠ [])
    (hpoint : ∀ n ∈ point, Path.Named n) : joinSlash point ≠ [] := by
  obtain ⟨n, rest, rfl⟩ := List.exists_cons_of_ne_nil hne
  obtain ⟨c, hhead, -⟩ := @Path.head_joinSlash_named n rest (hpoint n List.mem_cons_self)
  intro hnil
  rw [hnil] at hhead
  cases hhead

section

variable {path : Path} {names point : List Bytes} {trailing : Bool}

/-- A path begins with the text of a plain mount point exactly if its names do. -/
theorem mountContains_iff (h : NormalPath path names trailing)
    (hpoint : ∀ n ∈ point, Path.Named n) :
    mountContains (pointText point) path.generic = true ↔ point <+: names := by
  have htext : path.generic = 0x2f :: joinSlash (names ++ if trailing then [[]] else []) := by
    rw [h.generic, h.spelled]
    rfl
  have hslash : ∀ n ∈ names ++ (if trailing then [[]] else []), (0x2f : UInt8) ∉ n := by
    refine List.forall_mem_append.mpr ⟨fun n hn => (h.plain n hn).noSlash, fun n hn => ?_⟩
    cases trailing with
    | false => cases hn
    | true => exact List.mem_singleton.mp hn ▸ List.not_mem_nil
  have hdrop : point <+: names ++ (if trailing then [[]] else []) ↔ point <+: names := by
    cases trailing with
    | false => rw [if_neg Bool.false_ne_true, List.append_nil]
    | true =>
      rw [if_pos rfl, List.prefix_concat_iff]
      refine or_iff_right fun heq => (hpoint [] ?_).1 rfl
      rw [heq]
      exact List.mem_append_right _ (List.mem_singleton_self _)
  rw [htext, ← hdrop]
  generalize names ++ (if trailing then [[]] else []) = all at hslash
  simp only [mountContains, Bool.or_eq_true, Bool.and_eq_true, beq_iff_eq, decide_eq_true_eq,
    List.isPrefixOf_iff_prefix]
  by_cases hnil : point = []
  · subst hnil
    refine iff_of_true ?_ List.nil_prefix
    cases hall : joinSlash all with
    | nil => exact .inl rfl
    | cons c rest => exact .inr ⟨by simp [pointText, joinSlash], ⟨c :: rest, rfl⟩⟩
  · have hjoin : joinSlash point ≠ [] := joinSlash_ne_nil hnil hpoint
    have hpslash : ∀ n ∈ point, (0x2f : UInt8) ∉ n := fun n hn => (hpoint n hn).2
    have hroot : pointText point ≠ ascii "/" := fun heq => hjoin (List.cons.inj heq).2
    rw [if_neg hroot]
    by_cases hall : all = []
    · subst hall
      refine iff_of_false ?_ fun hpre => hnil (List.prefix_nil.mp hpre)
      rintro (heq | ⟨hlength, -⟩)
      · exact hjoin (List.cons.inj heq).2.symm
      · simp [pointText, joinSlash] at hlength
    · have hbegins := joinSlash_slash_begins hnil hall hpslash hslash
      have hproper : pointText point ++ [0x2f] <+: 0x2f :: joinSlash all ↔
          point <+: all ∧ point ≠ all := by
        rw [← hbegins, pointText, List.cons_append, List.cons_prefix_cons]
        exact and_iff_right rfl
      constructor
      · rintro (heq | ⟨-, hpre⟩)
        · have hsplit := splitSlash_joinSlash hall hslash
          rw [(List.cons.inj heq).2, splitSlash_joinSlash hnil hpslash] at hsplit
          exact hsplit ▸ List.prefix_refl _
        · exact (hproper.mp hpre).1
      · intro hpre
        by_cases hsame : point = all
        · exact .inl (hsame ▸ rfl)
        · have hlonger := hproper.mpr ⟨hpre, hsame⟩
          have hlength := hlonger.length_le
          rw [List.length_append, List.length_singleton] at hlength
          exact .inr ⟨by omega, hlonger⟩

theorem pointText_length_lt {above : List Bytes} (hpoint : ∀ n ∈ point, Path.Named n)
    (hpre : above <+: point) (hne : above ≠ point) :
    (pointText above).length < (pointText point).length := by
  obtain ⟨rest, rfl⟩ := hpre
  have hrest : rest ≠ [] := by
    rintro rfl
    exact hne (List.append_nil above).symm
  simp only [pointText, List.length_cons]
  by_cases habove : above = []
  · subst habove
    have hlength := List.length_pos_iff.mpr (joinSlash_ne_nil hrest hpoint)
    simpa [joinSlash] using hlength
  · rw [joinSlash_append hrest habove, List.length_append, List.length_cons]
    omega

end

/-! ## Lines that are not read back -/

theorem special_iff (c : UInt8) : (c == 0x20 || c == 0x09 || c == 0x0a || c == 0x5c) = true ↔
    c = 0x20 ∨ c = 0x09 ∨ c = 0x0a ∨ c = 0x5c := by
  simp only [Bool.or_eq_true, beq_iff_eq, or_assoc]

/-- Escaping keeps the slashes. -/
theorem count_slash_escape : ∀ text : Bytes, (escape text).count 0x2f = text.count 0x2f
  | [] => rfl
  | c :: rest => by
    rw [escape, List.flatMap_cons, List.count_append, ← escape, count_slash_escape rest,
      List.count_cons, Nat.add_comm]
    congr 1
    split
    · next hspecial =>
      rcases (special_iff c).mp hspecial with rfl | rfl | rfl | rfl <;> rfl
    · rw [List.count_singleton]

theorem length_le_escape : ∀ text : Bytes, text.length ≤ (escape text).length
  | [] => Nat.le_refl _
  | c :: rest => by
    have ih := length_le_escape rest
    rw [escape, List.flatMap_cons, List.length_append, ← escape, List.length_cons]
    split
    · exact (Nat.succ_le_succ ih).trans (by simp only [octal, List.length_cons]; omega)
    · rw [List.length_singleton]
      omega

/-- A mount point that is not written as it is does not contain what it should. -/
theorem not_mountContains_escape {candidate : Bytes} (hroot : text ≠ ascii "/")
    (hne : escape text ≠ text) (h : mountContains text candidate = true) :
    ¬mountContains (escape text) candidate = true := by
  intro hescape
  have hlength := length_le_escape text
  have hbegins : escape text <+: candidate := by
    simp only [mountContains, Bool.or_eq_true, Bool.and_eq_true, beq_iff_eq,
      List.isPrefixOf_iff_prefix] at hescape
    rcases hescape with rfl | ⟨-, hpre⟩
    · exact List.prefix_refl _
    · split at hpre
      · exact hpre
      · exact (List.prefix_append _ _).trans hpre
  simp only [mountContains, Bool.or_eq_true, Bool.and_eq_true, beq_iff_eq, if_neg hroot,
    List.isPrefixOf_iff_prefix] at h
  rcases h with rfl | ⟨-, hpre⟩
  · exact hne (hbegins.eq_of_length (Nat.le_antisymm hbegins.length_le hlength))
  · rcases Nat.lt_or_ge text.length (escape text).length with hlonger | hsame
    · -- the escaped text would go on behind the slash, but it has no more slashes
      have hslash : text ++ [0x2f] <+: escape text := by
        refine List.prefix_of_prefix_length_le hpre hbegins ?_
        rw [List.length_append, List.length_singleton]
        exact hlonger
      have hcount := hslash.sublist.count_le (0x2f : UInt8)
      rw [count_slash_escape, List.count_append, List.count_singleton_self] at hcount
      omega
    · refine hne (List.prefix_of_prefix_length_le hbegins
        ((List.prefix_append _ _).trans hpre) hsame |>.eq_of_length ?_)
      exact Nat.le_antisymm hsame hlength

theorem isWord_escape (hne : text ≠ [])
    (h : ∀ c ∈ text, isSpace c = true → c = 0x20 ∨ c = 0x09 ∨ c = 0x0a) : IsWord (escape text) := by
  constructor
  · intro hnil
    have hlength := length_le_escape text
    rw [hnil] at hlength
    exact hne (List.length_eq_zero_iff.mp (Nat.le_zero.mp hlength))
  · intro c hc
    obtain ⟨d, hd, hc⟩ := List.mem_flatMap.mp hc
    split at hc
    · next hspecial =>
      have hoctal : ∀ d ∈ ([0x20, 0x09, 0x0a, 0x5c] : List UInt8), ∀ c ∈ octal d,
          isSpace c = false := by
        decide +kernel
      refine hoctal d ?_ c hc
      simpa only [List.mem_cons, List.not_mem_nil, or_false] using (special_iff d).mp hspecial
    · next hplain =>
      rw [List.mem_singleton.mp hc]
      by_contra hspace
      refine hplain ((special_iff d).mpr ?_)
      rcases h d hd (by simpa using hspace) with heq | heq | heq
      · exact .inl heq
      · exact .inr (.inl heq)
      · exact .inr (.inr (.inl heq))

theorem Mount.Unbroken.word_eq {mount : Mount} (h : mount.Unbroken) :
    mount.word = escape (pointText mount.point) := by
  obtain ⟨hroot, hpoint⟩ := List.forall_mem_append.mp h
  have hword : IsWord (escape (pointText mount.point)) :=
    isWord_escape (List.cons_ne_nil _ _) hpoint
  rw [Mount.word, words_of_isWord (isWord_escape mount.rooted.1 hroot), words_of_isWord hword]
  rfl

section

variable {path : Path} {before after : List Mount} {mount : Mount} {trailing : Bool}

/-- If the line of the topmost mount is read back, only mounts that stray keep it from being
selected. -/
theorem selected_iff (hnormal : NormalPath path.lexicallyNormal (components path) trailing)
    (htopmost : Topmost (components path) before mount after) (hread : mount.ReadsBack) :
    Selected path.lexicallyNormal.generic before mount after ↔
      Undisturbed path.lexicallyNormal.generic before mount after := by
  have hcontains : ∀ m : Mount, m.ReadsBack →
      (mountContains m.word path.lexicallyNormal.generic = true ↔ m.point <+: components path) := by
    intro m hm
    rw [hm]
    exact mountContains_iff hnormal m.named
  constructor
  · intro h
    refine ⟨fun m hm hstrays => ?_, fun m hm hstrays => ?_⟩
    · exact (h.before m hm hstrays.2).trans (congrArg List.length hread).le
    · exact (h.after m hm hstrays.2).trans_eq (congrArg List.length hread)
  · intro h
    refine ⟨(hcontains mount hread).mpr htopmost.qualifies, fun m hm hin => ?_, fun m hm hin => ?_⟩
    -- a mount that is read back stands above the topmost one, any other strays
    · rw [hread]
      by_cases hback : m.ReadsBack
      · have hpre := (hcontains m hback).mp hin
        have hbelow := List.prefix_of_prefix_length_le hpre htopmost.qualifies
          (htopmost.before m hm hpre)
        rw [hback]
        by_cases hsame : m.point = mount.point
        · rw [hsame]
        · exact (pointText_length_lt mount.named hbelow hsame).le
      · exact h.before m hm ⟨hback, hin⟩
    · rw [hread]
      by_cases hback : m.ReadsBack
      · have hpre := (hcontains m hback).mp hin
        have hshorter := htopmost.after m hm hpre
        have hbelow := List.prefix_of_prefix_length_le hpre htopmost.qualifies hshorter.le
        rw [hback]
        exact pointText_length_lt mount.named hbelow fun heq => absurd (heq ▸ hshorter)
          (Nat.lt_irrefl _)
      · exact h.after m hm ⟨hback, hin⟩

end

/--
The answer should be the type of the topmost of the deepest mounts that contain the path, whatever
the types in the mount table are. If the line of this mount is read back, it is, exactly if no mount
strays with a word as long as its mount point. If it is not, for want of decoding the numbers in it,
the answer is that of another mount. Both are no question in a table without white space and
backslashes in its names.
-/
theorem filesystem_kind_topmost_iff {path : Path} {before after : List Mount} {mount : Mount}
    (habsolute : path.isAbsolute = true) (htopmost : Topmost (components path) before mount after) :
    (mount.ReadsBack →
      ((∀ earlier later type, earlier.map Prod.fst = before → later.map Prod.fst = after →
        filesystemKind (some (mountinfo (earlier ++ (mount, type) :: later))) path =
          kindOfType type.val) ↔
        Undisturbed path.lexicallyNormal.generic before mount after)) ∧
    (mount.Unbroken → ¬mount.ReadsBack →
      ¬∀ earlier later type, earlier.map Prod.fst = before → later.map Prod.fst = after →
        filesystemKind (some (mountinfo (earlier ++ (mount, type) :: later))) path =
          kindOfType type.val) ∧
    ((∀ m ∈ before ++ mount :: after, m.Plain) →
      mount.ReadsBack ∧ Undisturbed path.lexicallyNormal.generic before mount after) := by
  obtain ⟨trailing, hnormal⟩ := normalPath_components habsolute
  refine ⟨fun hread => filesystemKind_eq_iff.trans (selected_iff hnormal htopmost hread), ?_,
    fun hplain => ?_⟩
  · intro hunbroken hread hright
    have hselected := (filesystemKind_eq_iff.mp hright).qualifies
    have hne : escape (pointText mount.point) ≠ pointText mount.point := fun heq =>
      hread (hunbroken.word_eq.trans heq)
    rw [hunbroken.word_eq] at hselected
    refine not_mountContains_escape ?_ hne ((mountContains_iff hnormal mount.named).mpr
      htopmost.qualifies) hselected
    intro hroot
    rw [hroot] at hne
    exact hne rfl
  · simp only [List.forall_mem_append, List.forall_mem_cons] at hplain
    obtain ⟨hbefore, hmount, hafter⟩ := hplain
    exact ⟨hmount.readsBack, fun m hm hstrays => absurd (hbefore m hm).readsBack hstrays.1,
      fun m hm hstrays => absurd (hafter m hm).readsBack hstrays.1⟩

/-- A mount of the root of a disk. -/
def diskMount (point : List Bytes) (named : ∀ n ∈ point, Path.Named n) : Mount :=
  { mountId := 30
    parentId := 1
    major := 8
    minor := 1
    root := ascii "/"
    point
    options := ascii "rw,relatime"
    optional := [ascii "shared:1"]
    behind := ascii "/dev/sda1 rw"
    rooted := by decide +kernel
    named
    worded := by decide +kernel
    oneLine := by decide +kernel }

/-- The root directory, with a remote file system mounted somewhere below. -/
def mountedBelow (point : List Bytes) (named : ∀ n ∈ point, Path.Named n) :
    List (Mount × FileSystemType) :=
  [(diskMount [] (List.forall_mem_nil _), ext4), (diskMount point named, nfs)]

/-- A mount point that begins with a vertical tab, behind which the word of its line ends. -/
def strayMount : Mount :=
  diskMount [0x0b :: ascii "data"] (by decide)

/-- A remote file system between the root directory and a mount that strays for every path. -/
theorem plain_mount_found :
    filesystemKind (some (mountinfo (mountedBelow [ascii "mnt", ascii "disk"] (by decide) ++
      [(strayMount, ext4)]))) ⟨ascii "/mnt/disk/x"⟩ = (false, ascii "linux_nfs") ∧
    strayMount.Strays (ascii "/mnt/disk/x") := by
  have htopmost : Topmost (components ⟨ascii "/mnt/disk/x"⟩)
      [diskMount [] (List.forall_mem_nil _)] (diskMount [ascii "mnt", ascii "disk"] (by decide))
      [strayMount] :=
    ⟨by decide +kernel, by decide +kernel, by decide +kernel⟩
  have hread : (diskMount [ascii "mnt", ascii "disk"] (by decide)).ReadsBack := by
    unfold Mount.ReadsBack
    decide +kernel
  have hundisturbed : Undisturbed (Path.lexicallyNormal ⟨ascii "/mnt/disk/x"⟩).generic
      [diskMount [] (List.forall_mem_nil _)] (diskMount [ascii "mnt", ascii "disk"] (by decide))
      [strayMount] := by
    refine ⟨?_, ?_⟩
    · unfold Mount.Strays Mount.ReadsBack
      decide +kernel
    · unfold Mount.Strays Mount.ReadsBack
      decide +kernel
  refine ⟨((filesystem_kind_topmost_iff (by decide +kernel) htopmost).1 hread).mpr hundisturbed
    [(diskMount [] (List.forall_mem_nil _), ext4)] [(strayMount, ext4)] nfs rfl rfl, ?_⟩
  unfold Mount.Strays Mount.ReadsBack
  decide +kernel

/-- A remote file system whose mount point has a blank in its name is taken for the local one. -/
theorem blank_in_mount_point_missed :
    filesystemKind (some (mountinfo (mountedBelow [ascii "mnt", ascii "my disk"] (by decide))))
      ⟨ascii "/mnt/my disk/x"⟩ = (true, ascii "linux_ext4") ∧
    Topmost (components ⟨ascii "/mnt/my disk/x"⟩)
      [diskMount [] (List.forall_mem_nil _)] (diskMount [ascii "mnt", ascii "my disk"] (by decide))
      [] :=
  ⟨by decide +kernel, by decide +kernel, by decide +kernel, by decide +kernel⟩

end Usk.Policy
