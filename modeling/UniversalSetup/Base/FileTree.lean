import Mathlib.Data.List.Basic
import Mathlib.Data.List.Induction
import Mathlib.Data.List.Nodup
import Mathlib.Data.List.Perm.Basic

/-!
# Trees of files

A tree says what stands at each path, a path being the list of names from the root down. It is kept
as a list of entries, so that a walk over a directory is a walk over a list, and it carries two
facts: no path occurs twice, and whatever stands below a path stands in a directory.

`below` is the part of a tree under a path. The operations are described by what they do to it:
creating an entry leaves every part of the tree alone that has nothing to do with its path.
-/

namespace Usk

variable {ν ι : Type} {p r : List ν} {entries : List (List ν × ι)} {i : ι}

/-- Neither path leads through the other. -/
def Apart (p q : List ν) : Prop :=
  ¬p <+: q ∧ ¬q <+: p

variable [DecidableEq ν]

/-- What is left of a path below another one. -/
theorem dropPrefix_eq_some {l s : List ν} : l.dropPrefix? p = some s ↔ l = p ++ s := by
  rw [List.dropPrefix?_eq_some_iff]
  constructor
  · rintro ⟨p', rfl, h⟩
    rw [eq_of_beq h]
  · rintro rfl
    exact ⟨p, rfl, beq_self_eq_true p⟩

/-- The entries below a path, by their paths from there. -/
def below (entries : List (List ν × ι)) (p : List ν) : List (List ν × ι) :=
  entries.filterMap fun e => (e.1.dropPrefix? p).map fun r => (r, e.2)

/-- What stands at a path. -/
def at? (entries : List (List ν × ι)) (p : List ν) : Option ι :=
  entries.lookup p

/-! ## Parts of a list of entries -/

theorem mem_below : (r, i) ∈ below entries p ↔ (p ++ r, i) ∈ entries := by
  simp only [below, List.mem_filterMap, Option.map_eq_some_iff, dropPrefix_eq_some, Prod.mk.injEq]
  constructor
  · rintro ⟨e, he, s, hs, rfl, rfl⟩
    rwa [← hs]
  · exact fun h => ⟨_, h, r, rfl, rfl, rfl⟩

theorem below_append (xs ys : List (List ν × ι)) (p : List ν) :
    below (xs ++ ys) p = below xs p ++ below ys p :=
  List.filterMap_append

theorem at_cons (e : List ν × ι) (rest : List (List ν × ι)) (p : List ν) :
    at? (e :: rest) p = if p = e.1 then some e.2 else at? rest p := by
  unfold at?
  rw [List.lookup_cons]
  by_cases h : p = e.1
  · rw [if_pos h, beq_iff_eq.mpr h]
  · rw [if_neg h, beq_eq_false_iff_ne.mpr h]

theorem at_append (xs ys : List (List ν × ι)) (p : List ν) :
    at? (xs ++ ys) p = (at? xs p).or (at? ys p) :=
  List.lookup_append

/-- Where no path occurs twice, an entry is found at its path. -/
theorem at_of_mem (hnd : (entries.map Prod.fst).Nodup) (h : (p, i) ∈ entries) :
    at? entries p = some i := by
  induction entries with
  | nil => exact absurd h List.not_mem_nil
  | cons e rest ih =>
    obtain ⟨hnot, hnd⟩ := List.nodup_cons.mp hnd
    rw [at_cons]
    rcases List.mem_cons.mp h with rfl | h
    · rw [if_pos rfl]
    · rw [if_neg, ih hnd h]
      exact fun heq => hnot (heq ▸ List.mem_map_of_mem h)

theorem at_eq_none : at? entries p = none ↔ p ∉ entries.map Prod.fst := by
  unfold at?
  rw [List.lookup_eq_none_iff]
  simp only [List.mem_map, not_exists, not_and]
  constructor
  · rintro h e he rfl
    exact absurd (h e he) (by simp)
  · intro h e he
    rw [bne_iff_ne]
    exact fun hp => h e he hp.symm

theorem mem_of_at (h : at? entries p = some i) : (p, i) ∈ entries := by
  induction entries with
  | nil => cases h
  | cons e rest ih =>
    unfold at? at *
    rw [List.lookup_cons] at h
    split at h
    · next hp =>
      cases h
      rw [eq_of_beq hp]
      exact List.mem_cons_self
    · exact List.mem_cons_of_mem e (ih h)

/-! ## Trees -/

/-- Entries that make up a tree. -/
structure FileTree (ν ι : Type) (isDirectory : ι → Bool) where
  entries : List (List ν × ι)
  distinct : (entries.map Prod.fst).Nodup
  closed : ∀ p n, p ++ [n] ∈ entries.map Prod.fst → ∃ i, (p, i) ∈ entries ∧ isDirectory i = true

/-- Entries make up a tree if the entry above each of them is a directory. -/
theorem closed_of_parents {isDirectory : ι → Bool}
    (h : ∀ e ∈ entries, e.1 = [] ∨ (at? entries e.1.dropLast).any isDirectory = true) :
    ∀ p n, p ++ [n] ∈ entries.map Prod.fst → ∃ i, (p, i) ∈ entries ∧ isDirectory i = true := by
  intro p n hmem
  obtain ⟨e, he, heq⟩ := List.mem_map.mp hmem
  rcases h e he with hnil | hany
  · rw [hnil] at heq
    exact absurd heq.symm (List.append_ne_nil_of_right_ne_nil p (List.cons_ne_nil n []))
  · rw [heq, List.dropLast_concat] at hany
    cases hat : at? entries p with
    | none =>
      rw [hat] at hany
      cases hany
    | some i =>
      rw [hat] at hany
      exact ⟨i, mem_of_at hat, hany⟩

namespace FileTree

variable {isDirectory : ι → Bool} (t : FileTree ν ι isDirectory) {t' : FileTree ν ι isDirectory}

def find (p : List ν) : Option ι :=
  at? t.entries p

/-- The part of the tree below a path. -/
def part (p : List ν) : List (List ν × ι) :=
  below t.entries p

/-- A directory in which an entry of this path can stand. -/
def HasParent (p : List ν) : Prop :=
  p ≠ [] ∧ (t.find p.dropLast).any isDirectory = true

instance (p : List ν) : Decidable (t.HasParent p) :=
  inferInstanceAs (Decidable (_ ∧ _))

variable {t} in
theorem HasParent.directory (h : t.HasParent p) :
    ∃ i, t.find p.dropLast = some i ∧ isDirectory i = true := by
  have hany := h.2
  cases hf : t.find p.dropLast with
  | none =>
    rw [hf] at hany
    cases hany
  | some i =>
    rw [hf] at hany
    exact ⟨i, rfl, hany⟩

omit [DecidableEq ν] in
/-- The directories above an entry are there. -/
theorem exists_above : ∀ {r : List ν} {i : ι}, (p ++ r, i) ∈ t.entries →
    ∃ j, (p, j) ∈ t.entries := by
  intro r
  induction r using List.reverseRecOn with
  | nil =>
    intro i h
    exact ⟨i, by rwa [List.append_nil] at h⟩
  | append_singleton r n ih =>
    intro i h
    have hkey := List.mem_map_of_mem (f := Prod.fst) h
    rw [← List.append_assoc] at hkey
    obtain ⟨j, hj, -⟩ := t.closed (p ++ r) n hkey
    exact ih hj

theorem mem_of_find (h : t.find p = some i) : (p, i) ∈ t.entries :=
  mem_of_at h

theorem find_of_mem (h : (p, i) ∈ t.entries) : ∃ j, t.find p = some j := by
  cases hf : t.find p with
  | some j => exact ⟨j, rfl⟩
  | none => exact absurd (List.mem_map_of_mem h) (at_eq_none.mp hf)

/-- What stands somewhere stands in a directory. -/
theorem parent_of_find {n : ν} (h : t.find (p ++ [n]) = some i) :
    ∃ j, t.find p = some j ∧ isDirectory j = true := by
  obtain ⟨j, hj, hd⟩ := t.closed p n (List.mem_map_of_mem (f := Prod.fst) (t.mem_of_find h))
  exact ⟨j, at_of_mem t.distinct hj, hd⟩

/-- What stands below a place makes it a directory. -/
theorem directory_of_find_below {n : ν} (h : t.find (p ++ n :: r) = some i) :
    ∃ j, t.find p = some j ∧ isDirectory j = true := by
  rw [List.append_cons] at h
  obtain ⟨j, hj⟩ := t.exists_above (t.mem_of_find h)
  obtain ⟨k, hk⟩ := t.find_of_mem hj
  exact t.parent_of_find hk

/-! ## What a directory holds -/

/-- The entries below a path, without what stands at the path itself. -/
def inside (p : List ν) : List (List ν × ι) :=
  (t.part p).filter fun e => !e.1.isEmpty

/-- The names in a directory and what stands there. -/
def children (p : List ν) : List (ν × ι) :=
  (t.part p).filterMap fun e =>
    match e.1 with
    | [name] => some (name, e.2)
    | _ => none

theorem mem_part : (r, i) ∈ t.part p ↔ t.find (p ++ r) = some i := by
  rw [part, mem_below]
  exact ⟨fun h => at_of_mem t.distinct h, fun h => t.mem_of_find h⟩

theorem mem_inside : (r, i) ∈ t.inside p ↔ r ≠ [] ∧ t.find (p ++ r) = some i := by
  rw [inside, List.mem_filter, mem_part, and_comm, Bool.not_eq_true', List.isEmpty_eq_false_iff]

theorem distinct_part (p : List ν) : ((t.part p).map Prod.fst).Nodup := by
  have hpairs : (t.part p).Pairwise fun a b => a.1 ≠ b.1 := by
    refine List.Pairwise.filterMap _ ?_ (List.pairwise_map.mp t.distinct)
    intro e e' hne x hx y hy heq
    obtain ⟨r, hr, rfl⟩ := Option.map_eq_some_iff.mp hx
    obtain ⟨r', hr', rfl⟩ := Option.map_eq_some_iff.mp hy
    rw [dropPrefix_eq_some] at hr hr'
    exact hne (by rw [hr, hr', show r = r' from heq])
  exact List.pairwise_map.mpr hpairs

/-! ## New entries -/

/-- A new entry, where there is a directory for it and nothing in its place. -/
def create (p : List ν) (i : ι) : Option (FileTree ν ι isDirectory) :=
  if h : t.find p = none ∧ t.HasParent p then
    some
      { entries := t.entries ++ [(p, i)]
        distinct := by
          rw [List.map_append, List.map_singleton, ← List.concat_eq_append]
          exact t.distinct.concat (at_eq_none.mp h.1)
        closed := by
          intro q n hq
          rw [List.map_append, List.mem_append, List.map_singleton, List.mem_singleton] at hq
          rcases hq with hq | hq
          · obtain ⟨j, hj, hd⟩ := t.closed q n hq
            exact ⟨j, List.mem_append_left _ hj, hd⟩
          · obtain ⟨j, hj, hd⟩ := h.2.directory
            have hq : q = p.dropLast := by rw [← show q ++ [n] = p from hq, List.dropLast_concat]
            rw [← hq] at hj
            exact ⟨j, List.mem_append_left _ (t.mem_of_find hj), hd⟩ }
  else none

theorem create_eq_some (h : t.create p i = some t') :
    t.find p = none ∧ t.HasParent p ∧ t'.entries = t.entries ++ [(p, i)] := by
  unfold create at h
  split at h
  · next hp =>
    cases h
    exact ⟨hp.1, hp.2, rfl⟩
  · cases h

theorem find_create (h : t.create p i = some t') (q : List ν) :
    t'.find q = if q = p then some i else t.find q := by
  obtain ⟨hnone, -, hentries⟩ := t.create_eq_some h
  unfold find at *
  rw [hentries, at_append, at_cons]
  by_cases hq : q = p
  · rw [if_pos hq, if_pos hq, hq, hnone]
    rfl
  · rw [if_neg hq, if_neg hq]
    exact Option.or_none

theorem exists_create (i : ι) (hnone : t.find p = none) (hparent : t.HasParent p) :
    ∃ t', t.create p i = some t' := by
  unfold create
  rw [dif_pos ⟨hnone, hparent⟩]
  exact ⟨_, rfl⟩

/-- An entry inside of a part becomes its last. -/
theorem part_create_of_below {q : List ν} (h : t.create (q ++ r) i = some t') :
    t'.part q = t.part q ++ [(r, i)] := by
  obtain ⟨-, -, hentries⟩ := t.create_eq_some h
  unfold part
  rw [hentries, below_append]
  refine congrArg (t.entries.filterMap _ ++ ·) ?_
  unfold below
  rw [List.filterMap_cons, dropPrefix_eq_some.mpr rfl]
  rfl

/-! ## Changed entries -/

/-- The entry at a path changed to one of the same kind. -/
def update (p : List ν) (f : ι → ι) (hf : ∀ i, isDirectory (f i) = isDirectory i) :
    FileTree ν ι isDirectory where
  entries := t.entries.map fun e => if e.1 = p then (e.1, f e.2) else e
  distinct := by
    rw [List.map_map, List.map_congr_left (g := Prod.fst)]
    · exact t.distinct
    · intro e _
      rw [Function.comp_apply]
      split <;> rfl
  closed := by
    intro q n hq
    have hkeys : (t.entries.map fun e => if e.1 = p then (e.1, f e.2) else e).map Prod.fst =
        t.entries.map Prod.fst := by
      rw [List.map_map]
      refine List.map_congr_left fun e _ => ?_
      rw [Function.comp_apply]
      split <;> rfl
    rw [hkeys] at hq
    obtain ⟨i, hi, hd⟩ := t.closed q n hq
    by_cases hp : q = p
    · exact ⟨f i, List.mem_map.mpr ⟨_, hi, if_pos hp⟩, (hf i).trans hd⟩
    · exact ⟨i, List.mem_map.mpr ⟨_, hi, if_neg hp⟩, hd⟩

theorem find_update (p : List ν) (f : ι → ι) (hf : ∀ i, isDirectory (f i) = isDirectory i)
    (q : List ν) : (t.update p f hf).find q = if q = p then (t.find q).map f else t.find q := by
  show at? (t.entries.map fun e => if e.1 = p then (e.1, f e.2) else e) q =
    if q = p then (at? t.entries q).map f else at? t.entries q
  induction t.entries with
  | nil => split <;> rfl
  | cons e rest ih =>
    rw [List.map_cons, at_cons, at_cons, ih]
    by_cases hq : q = p
    · subst hq
      by_cases he : e.1 = q
      · rw [if_pos he, if_pos he.symm, if_pos rfl, if_pos he.symm, Option.map_some]
      · rw [if_neg he, if_neg (Ne.symm he), if_pos rfl, if_neg (Ne.symm he), if_pos rfl]
    · rw [if_neg hq, if_neg hq]
      by_cases he : e.1 = p
      · have hne : q ≠ e.1 := fun h => hq (h.trans he)
        rw [if_pos he, if_neg hne, if_neg hne]
      · rw [if_neg he]

/-- Two changes of one entry are one change. -/
theorem update_update (p : List ν) (f g : ι → ι)
    (hf : ∀ i, isDirectory (f i) = isDirectory i) (hg : ∀ i, isDirectory (g i) = isDirectory i) :
    (t.update p f hf).update p g hg = t.update p (g ∘ f) fun i => (hg (f i)).trans (hf i) := by
  have hentries : ((t.update p f hf).update p g hg).entries =
      (t.update p (g ∘ f) fun i => (hg (f i)).trans (hf i)).entries := by
    show (t.entries.map _).map _ = t.entries.map _
    rw [List.map_map]
    refine List.map_congr_left fun e _ => ?_
    rw [Function.comp_apply]
    by_cases he : e.1 = p
    · rw [if_pos he, if_pos he, if_pos he]
      rfl
    · rw [if_neg he, if_neg he, if_neg he]
  rw [FileTree.mk.injEq]
  exact hentries

end FileTree

end Usk
