import UniversalSetup.Json.Value

/-!
# Paths

`std::filesystem::path` on POSIX: a byte string whose components are the segments between slashes.
A path that ends in a slash has an empty last component. Native spelling matters to no function of
the runtime beyond its components, so `generic` is the spelling the runtime records and compares.
-/

namespace Usk

open Json (Result)

/-- A path as it was spelled. -/
structure Path where
  native : Bytes
deriving DecidableEq

variable {n : Bytes} {p : Path}

/-- Segments between slashes, empty ones included. -/
def splitSlash : Bytes → List Bytes
  | [] => [[]]
  | c :: rest =>
    if c = 0x2f then [] :: splitSlash rest
    else
      match splitSlash rest with
      | [] => [[c]]
      | segment :: segments => (c :: segment) :: segments

/-- Components joined by slashes. -/
def joinSlash : List Bytes → Bytes
  | [] => []
  | [n] => n
  | n :: m :: rest => n ++ 0x2f :: joinSlash (m :: rest)

namespace Path

/-- `u8path`. -/
def ofText (text : Bytes) : Path :=
  ⟨text⟩

/-- `is_absolute`, which on POSIX is `has_root_path`. -/
def isAbsolute (p : Path) : Bool :=
  p.native.head? == some 0x2f

/-- The components after the root directory. -/
def names (p : Path) : List Bytes :=
  let named := (splitSlash p.native).filter fun n => !n.isEmpty
  if !named.isEmpty && p.native.getLast? == some 0x2f then named ++ [[]] else named

def isEmpty (p : Path) : Bool :=
  p.native.isEmpty

/-- A path out of its root flag and components. -/
def ofParts (root : Bool) (names : List Bytes) : Path :=
  ⟨(if root then [0x2f] else []) ++ joinSlash names⟩

/-- `generic_string` and `generic_u8string`. -/
def generic (p : Path) : Bytes :=
  (ofParts p.isAbsolute p.names).native

/-- `operator/`. -/
def join (p q : Path) : Path :=
  if q.isAbsolute then q
  else if p.isEmpty || p.native.getLast? == some 0x2f then ⟨p.native ++ q.native⟩
  else ⟨p.native ++ 0x2f :: q.native⟩

/-- `parent_path`: the root directory is its own parent. -/
def parentPath (p : Path) : Path :=
  ofParts p.isAbsolute p.names.dropLast

/-- `fs::absolute` against the current directory; an empty path is refused. -/
def absolute (cwd p : Path) : Result Path :=
  if p.isEmpty then .error "cannot make absolute path: Invalid argument"
  else if p.isAbsolute then .ok p
  else .ok (cwd.join p)

/-- One component of `lexically_normal` against the components kept so far, latest first. -/
def normalStep (root : Bool) (kept : List Bytes) (name : Bytes) : List Bytes :=
  if name = [] || name = ascii "." then kept
  else if name = ascii ".." then
    match kept with
    | [] => if root then [] else [name]
    | last :: rest => if last = ascii ".." then name :: kept else rest
  else name :: kept

/-- `lexically_normal`. A removed last component leaves a trailing slash. -/
def lexicallyNormal (p : Path) : Path :=
  if p.isEmpty then p
  else
    let kept := p.names.foldl (normalStep p.isAbsolute) []
    let last := p.names.getLast?.getD []
    let trailing := last = [] || last = ascii "." || last = ascii ".."
    match kept with
    | [] => if p.isAbsolute then ofParts true [] else ofParts false [ascii "."]
    | top :: _ =>
      if trailing && !(top = ascii "..") then ofParts p.isAbsolute (kept.reverse ++ [[]])
      else ofParts p.isAbsolute kept.reverse

end Path

/-! ## Predicates of the transaction sources -/

/-- The loop of `comparable_path` that drops trailing slashes, over the reversed text. -/
def dropSlashes : Bytes → Bytes
  | [] => []
  | [c] => [c]
  | c :: d :: rest => if c = 0x2f then dropSlashes (d :: rest) else c :: d :: rest

/-- `comparable_path`. -/
def comparablePath (path : Path) : Bytes :=
  (dropSlashes path.generic.reverse).reverse

/-- `path_contains`. -/
def pathContains (parent child : Path) : Bool :=
  let parentText := comparablePath parent
  let childText := comparablePath child
  childText == parentText ||
    (decide (childText.length > parentText.length) && (parentText ++ [0x2f]).isPrefixOf childText)

/-- `require_disjoint`. -/
def requireDisjoint (left right : Path) : Result Unit :=
  if pathContains left right || pathContains right left then
    .error "transaction state, audit, and target roots must be disjoint"
  else .ok ()

/-- Device names that Windows reserves in every directory. -/
def reservedNames : List Bytes :=
  ["con", "prn", "aux", "nul", "clock$",
   "com1", "com2", "com3", "com4", "com5", "com6", "com7", "com8", "com9",
   "lpt1", "lpt2", "lpt3", "lpt4", "lpt5", "lpt6", "lpt7", "lpt8", "lpt9"].map ascii

/-- The check of one component in `safe_relative_path`. -/
def safeSegment (segment : Bytes) : Bool :=
  !(segment.isEmpty || segment == ascii "." || segment == ascii ".." || segment.contains 0x3a ||
      segment.getLast? == some 0x2e || segment.getLast? == some 0x20) &&
    !reservedNames.contains ((segment.takeWhile (· != 0x2e)).map toLower) &&
    segment.all fun ch => decide (0x20 ≤ ch) && decide (ch < 0x7f)

/-- `safe_relative_path`. -/
def safeRelativePath (relative : Path) : Bool :=
  !relative.isEmpty && !relative.isAbsolute && relative.names.all safeSegment

/-! ## Components of a joined text -/

theorem splitSlash_ne_nil (t : Bytes) : splitSlash t ≠ [] := by
  cases t with
  | nil => simp [splitSlash]
  | cons c rest =>
    rw [splitSlash]
    split
    · simp
    · split <;> simp

theorem splitSlash_append (hn : (0x2f : UInt8) ∉ n) (t : Bytes) :
    splitSlash (n ++ 0x2f :: t) = n :: splitSlash t := by
  induction n with
  | nil => rw [List.nil_append, splitSlash, if_pos rfl]
  | cons c rest ih =>
    rw [List.mem_cons, not_or] at hn
    rw [List.cons_append, splitSlash, if_neg (Ne.symm hn.1), ih hn.2]

theorem splitSlash_of_not_mem (hn : (0x2f : UInt8) ∉ n) : splitSlash n = [n] := by
  induction n with
  | nil => rfl
  | cons c rest ih =>
    rw [List.mem_cons, not_or] at hn
    rw [splitSlash, if_neg (Ne.symm hn.1), ih hn.2]

/-- Joining components without slashes is undone by splitting. -/
theorem splitSlash_joinSlash : ∀ {ns : List Bytes}, ns ≠ [] → (∀ n ∈ ns, (0x2f : UInt8) ∉ n) →
    splitSlash (joinSlash ns) = ns
  | [], h, _ => absurd rfl h
  | [n], _, hn => splitSlash_of_not_mem (hn n (List.mem_singleton_self n))
  | n :: m :: rest, _, hn => by
    rw [joinSlash, splitSlash_append (hn n List.mem_cons_self),
      splitSlash_joinSlash (by simp) fun x hx => hn x (List.mem_cons_of_mem _ hx)]

/-- Splitting loses nothing. -/
theorem joinSlash_splitSlash (t : Bytes) : joinSlash (splitSlash t) = t := by
  induction t with
  | nil => rfl
  | cons c rest ih =>
    obtain ⟨segment, segments, hsplit⟩ := List.exists_cons_of_ne_nil (splitSlash_ne_nil rest)
    rw [hsplit] at ih
    rw [splitSlash]
    split
    · next hc => rw [hsplit, joinSlash, ih, hc, List.nil_append]
    · rw [hsplit]
      cases segments with
      | nil => rw [joinSlash, ← ih, joinSlash]
      | cons next segments => rw [joinSlash, ← ih, joinSlash, List.cons_append]

theorem not_slash_of_mem_splitSlash : ∀ {t n : Bytes}, n ∈ splitSlash t → (0x2f : UInt8) ∉ n
  | [], n, h => by
    rw [splitSlash, List.mem_singleton] at h
    subst h
    exact List.not_mem_nil
  | c :: rest, n, h => by
    rw [splitSlash] at h
    split at h
    · rcases List.mem_cons.mp h with rfl | h
      · exact List.not_mem_nil
      · exact not_slash_of_mem_splitSlash h
    · next hc =>
      split at h
      · next he => exact absurd he (splitSlash_ne_nil rest)
      · next segment segments he =>
        rcases List.mem_cons.mp h with rfl | h
        · have hs : segment ∈ splitSlash rest := he ▸ List.mem_cons_self
          rw [List.mem_cons, not_or]
          exact ⟨Ne.symm hc, not_slash_of_mem_splitSlash hs⟩
        · exact not_slash_of_mem_splitSlash (he ▸ List.mem_cons_of_mem _ h)

/-! ## Safe relative paths -/

theorem mem_joinSlash : ∀ {ns : List Bytes} {c : UInt8}, c ∈ joinSlash ns →
    c = 0x2f ∨ ∃ n ∈ ns, c ∈ n
  | [], c, h => by cases h
  | [n], c, h => Or.inr ⟨n, List.mem_singleton_self n, h⟩
  | n :: m :: rest, c, h => by
    rw [joinSlash, List.mem_append, List.mem_cons] at h
    rcases h with h | rfl | h
    · exact Or.inr ⟨n, List.mem_cons_self, h⟩
    · exact Or.inl rfl
    · rcases mem_joinSlash h with rfl | ⟨x, hx, hc⟩
      · exact Or.inl rfl
      · exact Or.inr ⟨x, List.mem_cons_of_mem n hx, hc⟩

theorem joinSlash_head {n : Bytes} {ns : List Bytes} (hn : n ≠ []) :
    (joinSlash (n :: ns)).head? = n.head? := by
  cases ns with
  | nil => rfl
  | cons m rest =>
    rw [joinSlash, List.head?_append]
    cases n with
    | nil => exact absurd rfl hn
    | cons c n => rfl

theorem joinSlash_getLast : ∀ {ns : List Bytes} {n : Bytes}, ns.getLast? = some n → n ≠ [] →
    (joinSlash ns).getLast? = n.getLast?
  | [], n, h, _ => by cases h
  | [m], n, h, _ => by
    rw [List.getLast?_singleton, Option.some.injEq] at h
    rw [joinSlash, h]
  | m :: k :: rest, n, h, hn => by
    rw [List.getLast?_cons_cons] at h
    have ih := joinSlash_getLast h hn
    rw [joinSlash, List.getLast?_append, List.getLast?_cons, ih]
    cases hl : n.getLast? with
    | none => exact absurd (List.getLast?_eq_none_iff.mp hl) hn
    | some c => rfl

/-- Components without slashes and without empty names are the components of the joined path. -/
theorem names_joinSlash {ns : List Bytes} (hne : ns ≠ []) (hs : ∀ n ∈ ns, (0x2f : UInt8) ∉ n)
    (he : ∀ n ∈ ns, n ≠ []) : Path.names ⟨joinSlash ns⟩ = ns := by
  have hsplit := splitSlash_joinSlash hne hs
  have hfilter : (splitSlash (joinSlash ns)).filter (fun n => !n.isEmpty) = ns := by
    rw [hsplit, List.filter_eq_self]
    intro n hn
    simpa using he n hn
  obtain ⟨n, hn⟩ := Option.ne_none_iff_exists'.mp (mt List.getLast?_eq_none_iff.mp hne)
  have hmem : n ∈ ns := List.mem_of_getLast? hn
  have hlast : ¬(joinSlash ns).getLast? = some 0x2f := by
    rw [joinSlash_getLast hn (he n hmem)]
    exact fun h => hs n hmem (List.mem_of_getLast? h)
  simp only [Path.names, hfilter]
  rw [if_neg]
  simp [hlast]

/-- A path that is not absolute and has no empty component is spelled out by its components. -/
theorem names_ne_nil_of_relative (hp : p.isEmpty = false) (ha : p.isAbsolute = false) :
    p.names ≠ [] := by
  obtain ⟨native⟩ := p
  cases native with
  | nil => cases hp
  | cons c rest =>
    have hc : ¬c = 0x2f := by
      rintro rfl
      cases ha
    have hhead : ∃ n ns, splitSlash (c :: rest) = (c :: n) :: ns := by
      rw [splitSlash, if_neg hc]
      split
      · exact ⟨[], [], rfl⟩
      · exact ⟨_, _, rfl⟩
    obtain ⟨n, ns, hsplit⟩ := hhead
    have hnamed : (splitSlash (c :: rest)).filter (fun n => !n.isEmpty) ≠ [] := by
      rw [hsplit, List.filter_cons_of_pos rfl]
      exact List.cons_ne_nil _ _
    simp only [Path.names]
    split
    · exact List.append_ne_nil_of_right_ne_nil _ (List.cons_ne_nil _ _)
    · exact hnamed

theorem not_slash_of_mem_names (h : n ∈ p.names) : (0x2f : UInt8) ∉ n := by
  simp only [Path.names] at h
  split at h
  · rcases List.mem_append.mp h with h | h
    · exact not_slash_of_mem_splitSlash (List.mem_of_mem_filter h)
    · rw [List.mem_singleton.mp h]
      exact List.not_mem_nil
  · exact not_slash_of_mem_splitSlash (List.mem_of_mem_filter h)

theorem safeSegment_ne_nil (h : safeSegment n = true) : n ≠ [] := by
  rintro rfl
  cases h

/-- What `safe_relative_path` tells about a path. -/
theorem safeRelativePath_iff : safeRelativePath p = true ↔
    p.isEmpty = false ∧ p.isAbsolute = false ∧ ∀ n ∈ p.names, safeSegment n = true := by
  rw [safeRelativePath, Bool.and_eq_true, Bool.and_eq_true, Bool.not_eq_true', Bool.not_eq_true',
    List.all_eq_true, and_assoc]

/-- The recorded spelling of a safe path has its components and is relative. -/
theorem safe_generic (h : safeRelativePath p = true) :
    p.generic = joinSlash p.names ∧ (Path.ofText p.generic).names = p.names ∧
      (Path.ofText p.generic).isAbsolute = false := by
  obtain ⟨hp, ha, hseg⟩ := safeRelativePath_iff.mp h
  have hne := names_ne_nil_of_relative hp ha
  have hgen : p.generic = joinSlash p.names := by
    rw [Path.generic, ha]
    rfl
  have hnil : ∀ n ∈ p.names, n ≠ [] := fun n hn => safeSegment_ne_nil (hseg n hn)
  refine ⟨hgen, ?_, ?_⟩
  · rw [hgen]
    exact names_joinSlash hne (fun n hn => not_slash_of_mem_names hn) hnil
  · obtain ⟨n, ns, hns⟩ := List.exists_cons_of_ne_nil hne
    have hmem : n ∈ p.names := hns ▸ List.mem_cons_self
    rw [hgen, Path.isAbsolute, Path.ofText, beq_eq_false_iff_ne, hns,
      joinSlash_head (hnil n hmem)]
    exact fun hc => not_slash_of_mem_names hmem (List.mem_of_mem_head? hc)

end Usk
