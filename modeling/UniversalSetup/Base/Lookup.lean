import UniversalSetup.Base.Posix

/-!
# Looking a path up

`stat` and `lstat` with the reason why there is no answer. A path is missing if a name on it is not
there or is no directory (`ENOENT`, `ENOTDIR`), which `std::filesystem` counts as an answer. It
cannot be looked up if a directory on it is closed to the process or too many links stand on it
(`EACCES`, `ELOOP`).
-/

namespace Usk.Posix

inductive Lookup where
  | found (place : List Bytes) (object : Object)
  | missing
  | failed
deriving DecidableEq

namespace FileSystem

variable (fs : FileSystem)

/-- The way along names from a place. `follow` goes on behind a link. A slash at the end asks for a
directory, which need not be open. -/
def look (last : Bool) (follow : (place todo : List Bytes) → Lookup) :
    (place todo : List Bytes) → Lookup
  | place, [] =>
    match fs.find place with
    | some object => .found place object
    | none => .missing
  | place, name :: rest =>
    match fs.find place with
    | some (.directory _ _ _ searchable) =>
      if name = [] then look last follow place rest
      else if searchable = false then .failed
      else if name = ascii "." then look last follow place rest
      else if name = ascii ".." then look last follow place.dropLast rest
      else
        match fs.find (place ++ [name]) with
        | some (.link target) =>
          if rest = [] ∧ last = false then .found (place ++ [name]) (.link target)
          else follow (if target.isAbsolute then [] else place) (target.names ++ rest)
        | _ => look last follow (place ++ [name]) rest
    | _ => .missing

/-- The look-up with a number of links that may be followed. A link at the end is followed if `last`
says so. -/
def lookup (last : Bool) : (budget : Nat) → (place todo : List Bytes) → Lookup
  | 0 => fs.look last fun _ _ => .failed
  | budget + 1 => fs.look last (lookup last budget)

/-- `stat` of an absolute path. -/
def status (p : Path) : Lookup :=
  fs.lookup true maximumLinks [] p.names

/-- `lstat` of an absolute path. -/
def symlinkStatus (p : Path) : Lookup :=
  fs.lookup false maximumLinks [] p.names

variable {fs}

/-- What stands at the place that plain names spell is found there, unless a directory is closed.
With a slash at the end it has to be a directory. -/
theorem look_of_find {last trailing : Bool} {follow : List Bytes → List Bytes → Lookup} :
    ∀ {names place : List Bytes} {o : Object}, (∀ n ∈ names, PlainName n) →
      fs.find (place ++ names) = some o → (trailing = true → o.isDirectory = true) →
      (last = false ∨ ∀ target, o ≠ .link target) →
      fs.look last follow place (names ++ if trailing then [[]] else []) = .found (place ++ names)
        o ∨ fs.look last follow place (names ++ if trailing then [[]] else []) = .failed
  | [], place, o, _, hfind, hslash, _ => by
    rw [List.append_nil] at hfind ⊢
    have hplace : fs.look last follow place [] = .found place o := by rw [look, hfind]
    refine .inl ?_
    cases trailing with
    | false => exact hplace
    | true =>
      rw [List.nil_append, if_pos rfl, look, hfind]
      cases o with
      | directory device inode readable searchable => exact hplace
      | file => cases hslash rfl
      | link => cases hslash rfl
      | other => cases hslash rfl
  | name :: rest, place, o, hplain, hfind, hslash, hend => by
    have hname := hplain name List.mem_cons_self
    obtain ⟨directory, hplace, hdirectory⟩ := fs.tree.directory_of_find_below hfind
    have hnext : fs.find (place ++ [name] ++ rest) = some o := by
      rwa [List.append_assoc, List.singleton_append]
    have ih := @look_of_find last trailing follow rest (place ++ [name]) o
      (fun n hn => hplain n (List.mem_cons_of_mem _ hn)) hnext hslash hend
    rw [List.append_assoc place, List.singleton_append] at ih
    rw [List.cons_append, look, show fs.find place = some directory from hplace]
    cases directory with
    | directory device inode readable searchable =>
      dsimp only
      rw [if_neg hname.nonempty]
      split
      · exact .inr rfl
      · rw [if_neg hname.noDot, if_neg hname.noDotDot]
        split
        · next target htarget =>
          cases rest with
          | nil =>
            rw [List.append_nil, htarget] at hnext
            cases hnext
            rcases hend with rfl | hend
            · cases trailing with
              | false => exact .inl (if_pos ⟨rfl, rfl⟩)
              | true => cases hslash rfl
            · exact absurd rfl (hend target)
          | cons next rest =>
            have hfree := linkFree_of_find hfind [] name (next :: rest) rfl
              (List.cons_ne_nil _ _) target
            rw [List.append_nil] at hfree
            exact absurd htarget hfree
        · exact ih
    | file => cases hdirectory
    | link => cases hdirectory
    | other => cases hdirectory

theorem lookup_of_find {last trailing : Bool} {budget : Nat} {names place : List Bytes} {o : Object}
    (hplain : ∀ n ∈ names, PlainName n) (hfind : fs.find (place ++ names) = some o)
    (hslash : trailing = true → o.isDirectory = true)
    (hend : last = false ∨ ∀ target, o ≠ .link target) :
    fs.lookup last budget place (names ++ if trailing then [[]] else []) = .found (place ++ names)
      o ∨ fs.lookup last budget place (names ++ if trailing then [[]] else []) = .failed := by
  cases budget with
  | zero => exact look_of_find hplain hfind hslash hend
  | succ budget => exact look_of_find hplain hfind hslash hend

/-- Without links on the way, what is found stands at the place that the names spell, a slash at the
end left aside. A link at the end is in the way only if it is followed. -/
theorem look_eq_found {last trailing : Bool} {follow : List Bytes → List Bytes → Lookup} :
    ∀ {names place found : List Bytes} {o : Object}, (∀ n ∈ names, PlainName n) →
      (∀ above, above ≠ [] → above <+: names → above ≠ names ∨ last = true ∨ trailing = true →
        ∀ target, fs.find (place ++ above) ≠ some (.link target)) →
      fs.look last follow place (names ++ if trailing then [[]] else []) = .found found o →
      fs.find (place ++ names) = some o
  | [], place, found, o, _, _, h => by
    have hplace : fs.look last follow place [] = .found found o := by
      cases trailing with
      | false => exact h
      | true =>
        rw [List.nil_append, if_pos rfl, look] at h
        split at h
        · rwa [if_pos rfl] at h
        · cases h
    rw [look] at hplace
    rw [List.append_nil]
    split at hplace
    · next object hobject =>
      cases hplace
      exact hobject
    · cases hplace
  | name :: rest, place, found, o, hplain, hfree, h => by
    have hname := hplain name List.mem_cons_self
    have hnext : ∀ above, above ≠ [] → above <+: rest →
        above ≠ rest ∨ last = true ∨ trailing = true → ∀ target,
        fs.find (place ++ [name] ++ above) ≠ some (.link target) := by
      intro above hne hpre hend target
      rw [List.append_assoc, List.singleton_append]
      refine hfree (name :: above) (List.cons_ne_nil _ _) (List.cons_prefix_cons.mpr ⟨rfl, hpre⟩) ?_
        target
      exact hend.imp_left fun hshort heq => hshort (List.tail_eq_of_cons_eq heq)
    rw [List.cons_append, look] at h
    split at h
    · rw [if_neg hname.nonempty] at h
      split at h
      · cases h
      · rw [if_neg hname.noDot, if_neg hname.noDotDot] at h
        split at h
        · next target htarget =>
          by_cases hend : rest ++ (if trailing then [[]] else []) = [] ∧ last = false
          · rw [if_pos hend] at h
            cases h
            rw [(List.append_eq_nil_iff.mp hend.1).1]
            exact htarget
          · refine absurd htarget (hfree [name] (List.cons_ne_nil _ _) ?_ ?_ target)
            · exact List.cons_prefix_cons.mpr ⟨rfl, List.nil_prefix⟩
            · by_contra hnot
              rw [not_or, not_or, not_not, Bool.not_eq_true, Bool.not_eq_true] at hnot
              obtain ⟨hshort, rfl, rfl⟩ := hnot
              refine hend ⟨?_, rfl⟩
              rw [← List.tail_eq_of_cons_eq hshort]
              rfl
        · have ih := look_eq_found (fun n hn => hplain n (List.mem_cons_of_mem _ hn)) hnext h
          rwa [List.append_assoc, List.singleton_append] at ih
    · cases h

theorem lookup_eq_found {last trailing : Bool} {budget : Nat} {names place found : List Bytes}
    {o : Object} (hplain : ∀ n ∈ names, PlainName n)
    (hfree : ∀ above, above ≠ [] → above <+: names →
      above ≠ names ∨ last = true ∨ trailing = true →
      ∀ target, fs.find (place ++ above) ≠ some (.link target))
    (h : fs.lookup last budget place (names ++ if trailing then [[]] else []) = .found found o) :
    fs.find (place ++ names) = some o := by
  cases budget with
  | zero => exact look_eq_found hplain hfree h
  | succ budget => exact look_eq_found hplain hfree h

/-! ## A path in two parts -/

theorem look_append {last : Bool} {follow through : List Bytes → List Bytes → Lookup}
    {more found : List Bytes} {o : Object} (hmore : more ≠ [])
    (hfollow : ∀ place todo, follow place (todo ++ more) = .found found o →
      ∃ top middle left, through place todo = .found top middle ∧
        fs.lookup last left top more = .found found o)
    (hend : ∀ place, fs.look last follow place more = .found found o →
      ∃ left, fs.lookup last left place more = .found found o) :
    ∀ {names place : List Bytes}, fs.look last follow place (names ++ more) = .found found o →
      ∃ top middle left, fs.look true through place names = .found top middle ∧
        fs.lookup last left top more = .found found o
  | [], place, h => by
    obtain ⟨left, hleft⟩ := hend place h
    obtain ⟨name, rest, rfl⟩ := List.exists_cons_of_ne_nil hmore
    cases hplace : fs.find place with
    | none =>
      rw [List.nil_append, look, hplace] at h
      cases h
    | some object =>
      refine ⟨place, object, left, ?_, hleft⟩
      rw [look, hplace]
  | name :: rest, place, h => by
    rw [List.cons_append, look] at h
    rw [look]
    split at h
    · split at h
      · next hslash =>
        rw [if_pos hslash]
        exact look_append hmore hfollow hend h
      · next hslash =>
        rw [if_neg hslash]
        split at h
        · cases h
        · next hsearch =>
          rw [if_neg hsearch]
          split at h
          · next hdot =>
            rw [if_pos hdot]
            exact look_append hmore hfollow hend h
          · next hdot =>
            rw [if_neg hdot]
            split at h
            · next hup =>
              rw [if_pos hup]
              exact look_append hmore hfollow hend h
            · next hup =>
              rw [if_neg hup]
              split at h
              · rw [if_neg fun hboth => hmore (List.append_eq_nil_iff.mp hboth.1).2,
                  ← List.append_assoc] at h
                rw [if_neg fun hboth => Bool.noConfusion hboth.2]
                exact hfollow _ _ h
              · exact look_append hmore hfollow hend h
    · cases h

/-- What is found at the end of a path is found from the place that its first part leads to. A link
at the end of the first part is followed. -/
theorem lookup_append {last : Bool} {more found : List Bytes} {o : Object} (hmore : more ≠ []) :
    ∀ {budget : Nat} {names place : List Bytes},
      fs.lookup last budget place (names ++ more) = .found found o →
      ∃ top middle left, fs.lookup true budget place names = .found top middle ∧
        fs.lookup last left top more = .found found o
  | 0, _, _, h => by
    refine look_append hmore ?_ ?_ h
    · intro _ _ hfailed
      cases hfailed
    · intro _ hplace
      exact ⟨0, hplace⟩
  | budget + 1, _, _, h => by
    refine look_append hmore ?_ ?_ h
    · intro _ _ hfollow
      exact lookup_append hmore hfollow
    · intro _ hplace
      exact ⟨budget + 1, hplace⟩

end FileSystem

end Usk.Posix
