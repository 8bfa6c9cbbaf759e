import UniversalSetup.Base.Bytes
import Mathlib.Data.List.Lex

/-!
# Maps keyed by byte strings

A `std::map<std::string, T>` as the list of its entries in key order. The operations are those of
the standard map, and a map is looked up like the list of its members as long as these have distinct
keys. What is special about byte strings as keys is that the keys with a given beginning stand
together, right after the place where that beginning itself would stand: one `lower_bound` tells
whether there is any.
-/

namespace Usk

/-- The entries of a `std::map<std::string, ν>`. -/
abbrev ByteMap (ν : Type) := List (Bytes × ν)

namespace ByteMap

variable {ν : Type} {o ms : ByteMap ν} {key : Bytes}

/-- `find`. -/
def find : ByteMap ν → Bytes → Option ν
  | [], _ => none
  | (k, v) :: rest, key => if k = key then some v else find rest key

/-- Insertion in key order. A present key keeps its value, as with `emplace`. -/
def insert : ByteMap ν → Bytes → ν → ByteMap ν
  | [], key, value => [(key, value)]
  | (k, v) :: rest, key, value =>
    if key < k then (key, value) :: (k, v) :: rest
    else if key = k then (k, v) :: rest
    else (k, v) :: insert rest key value

/-- `emplace(...).second`: `none` when the key is present. -/
def emplace (o : ByteMap ν) (key : Bytes) (value : ν) : Option (ByteMap ν) :=
  if (find o key).isSome then none else some (insert o key value)

/-- A map written as an initializer list. -/
def ofList (ms : ByteMap ν) : ByteMap ν :=
  ms.foldl (fun o m => insert o m.1 m.2) []

/-- `erase`. -/
def erase (o : ByteMap ν) (key : Bytes) : ByteMap ν :=
  o.filter fun m => m.1 ≠ key

def keys (o : ByteMap ν) : List Bytes :=
  o.map Prod.fst

/-- `lower_bound`: the first entry whose key is not below the given one. -/
def lowerBound (m : ByteMap ν) (key : Bytes) : Option (Bytes × ν) :=
  m.find? fun e => !decide (e.1 < key)

/-- Members in strictly increasing key order, as a `std::map` iterates them. -/
def Sorted (o : ByteMap ν) : Prop :=
  o.Pairwise fun a b => a.1 < b.1

/-! ## Key order -/

instance asymm_byte_lt : Std.Asymm (α := UInt8) (· < ·) where
  asymm a b h := by
    rw [UInt8.lt_iff_toNat_lt] at h ⊢
    omega

instance trichotomous_byte_lt : Std.Trichotomous (α := UInt8) (· < ·) where
  trichotomous a b h1 h2 := by
    rw [UInt8.lt_iff_toNat_lt] at h1 h2
    exact UInt8.toNat_inj.mp (by omega)

theorem key_lt_trans {a b c : Bytes} (h1 : a < b) (h2 : b < c) : a < c :=
  List.lt_trans h1 h2

theorem key_lt_irrefl (a : Bytes) : ¬a < a :=
  List.lt_irrefl a

theorem key_lt_of_not {a b : Bytes} (h1 : ¬a < b) (h2 : a ≠ b) : b < a := by
  rcases List.le_total a b with h | h
  · exact absurd (List.le_antisymm h (List.not_lt.mp h1)) h2
  · by_contra hc
    exact h2 (List.le_antisymm (List.not_lt.mp hc) h)

theorem mem_insert {value : ν} {m : Bytes × ν} (h : m ∈ insert o key value) :
    m = (key, value) ∨ m ∈ o := by
  induction o with
  | nil => exact Or.inl (by simpa [insert] using h)
  | cons p rest ih =>
    obtain ⟨k, v⟩ := p
    rw [insert] at h
    split at h
    · simpa using h
    · split at h
      · exact Or.inr h
      · rcases List.mem_cons.mp h with rfl | h
        · exact Or.inr List.mem_cons_self
        · rcases ih h with rfl | h
          · exact Or.inl rfl
          · exact Or.inr (List.mem_cons_of_mem _ h)

theorem sorted_insert (h : Sorted o) (key : Bytes) (value : ν) :
    Sorted (insert o key value) := by
  induction o with
  | nil => simp [insert, Sorted]
  | cons p rest ih =>
    obtain ⟨k, v⟩ := p
    obtain ⟨hlt, hrest⟩ := List.pairwise_cons.mp h
    rw [insert]
    split
    · next hk =>
      refine List.pairwise_cons.mpr ⟨?_, h⟩
      intro m hm
      rcases List.mem_cons.mp hm with rfl | hm
      · exact hk
      · exact key_lt_trans hk (hlt m hm)
    · next hk =>
      split
      · exact h
      · next hne =>
        refine List.pairwise_cons.mpr ⟨?_, ih hrest⟩
        intro m hm
        rcases mem_insert hm with rfl | hm
        · exact key_lt_of_not hk hne
        · exact hlt m hm

theorem foldl_insert_sorted : ∀ (ms : ByteMap ν) {o : ByteMap ν}, Sorted o →
    Sorted (ms.foldl (fun o m => insert o m.1 m.2) o)
  | [], _, h => h
  | m :: ms, _, h => foldl_insert_sorted ms (sorted_insert h m.1 m.2)

theorem sorted_ofList (ms : ByteMap ν) : Sorted (ofList ms) :=
  foldl_insert_sorted ms List.Pairwise.nil

theorem find_eq_none : find o key = none ↔ key ∉ keys o := by
  induction o with
  | nil => simp [find, keys]
  | cons p rest ih =>
    obtain ⟨k, v⟩ := p
    by_cases h : k = key
    · simp [find, keys, h]
    · have hne : ¬key = k := fun e => h e.symm
      simpa [find, keys, h, hne] using ih

theorem insert_cons_of_ne {k : Bytes} {v value : ν} {rest : ByteMap ν} (h : ¬k = key) :
    insert ((k, v) :: rest) key value
      = if key < k then (key, value) :: (k, v) :: rest else (k, v) :: insert rest key value := by
  have hne : ¬key = k := fun e => h e.symm
  rw [insert]
  simp only [if_neg hne]

/-- Looking a key up after inserting an absent one. -/
theorem find_insert (h : find o key = none) (value : ν) (k : Bytes) :
    find (insert o key value) k = if key = k then some value else find o k := by
  induction o with
  | nil => simp [insert, find]
  | cons p rest ih =>
    obtain ⟨k', v⟩ := p
    rw [find] at h
    split at h
    · cases h
    · next hne =>
      rw [insert_cons_of_ne hne]
      split
      · simp [find]
      · rw [find, ih h, find]
        by_cases hk : k' = k
        · have : ¬key = k := by rintro rfl; exact hne hk
          simp [hk, this]
        · simp [hk]

/-- An insertion of an absent key adds one member and moves nothing else. -/
theorem insert_perm (h : find o key = none) (value : ν) :
    (insert o key value).Perm ((key, value) :: o) := by
  induction o with
  | nil => simp [insert]
  | cons p rest ih =>
    obtain ⟨k', v⟩ := p
    rw [find] at h
    split at h
    · cases h
    · next hne =>
      rw [insert_cons_of_ne hne]
      split
      · exact List.Perm.refl _
      · exact ((ih h).cons _).trans (List.Perm.swap ..)

theorem mem_insert_iff (h : find o key = none) {value : ν} {m : Bytes × ν} :
    m ∈ insert o key value ↔ m = (key, value) ∨ m ∈ o :=
  (insert_perm h value).mem_iff.trans List.mem_cons

theorem erase_insert (h : find o key = none) (value : ν) :
    erase (insert o key value) key = o := by
  induction o with
  | nil => simp [insert, erase]
  | cons p rest ih =>
    obtain ⟨k', v⟩ := p
    have hall : erase ((k', v) :: rest) key = (k', v) :: rest := by
      refine List.filter_eq_self.mpr fun m hm => ?_
      have := find_eq_none.mp h
      simp only [decide_eq_true_eq]
      rintro rfl
      exact this (List.mem_map_of_mem hm)
    rw [find] at h
    split at h
    · cases h
    · next hne =>
      rw [insert_cons_of_ne hne]
      split
      · rw [← hall]
        simp [erase]
      · have hrec := ih h
        simp only [erase, ne_eq, decide_not] at hrec ⊢
        simp [hne, hrec]

/-- Inserting members with new, pairwise distinct keys: lookups see the old map behind them. -/
theorem find_foldl_insert : ∀ (ms : ByteMap ν) (o : ByteMap ν), (keys ms).Nodup →
    (∀ m ∈ ms, find o m.1 = none) → ∀ k,
    find (ms.foldl (fun o m => insert o m.1 m.2) o) k
      = match find ms k with | some v => some v | none => find o k
  | [], _, _, _, _ => rfl
  | (key, value) :: ms, o, hnd, hnew, k => by
    obtain ⟨hnot, hnd⟩ := List.nodup_cons.mp hnd
    have hkey : find o key = none := hnew (key, value) List.mem_cons_self
    rw [List.foldl_cons, find_foldl_insert ms _ hnd]
    · rw [find_insert hkey, find]
      by_cases hk : key = k
      · have hnone : find ms key = none := find_eq_none.mpr hnot
        subst hk
        simp [hnone]
      · simp [hk]
    · intro m hm
      have hne : ¬key = m.1 := fun e => hnot (List.mem_map.mpr ⟨m, hm, e.symm⟩)
      rw [find_insert hkey, if_neg hne]
      exact hnew m (List.mem_cons_of_mem _ hm)

/-- A map built from members with distinct keys is looked up like the list of them. -/
theorem find_ofList {ms : ByteMap ν} (h : (keys ms).Nodup) (k : Bytes) :
    find (ofList ms) k = find ms k := by
  rw [ofList, find_foldl_insert ms [] h (fun _ _ => rfl)]
  cases find ms k <;> rfl

theorem foldl_insert_perm : ∀ (ms : ByteMap ν) (o : ByteMap ν), (keys ms).Nodup →
    (∀ m ∈ ms, find o m.1 = none) →
    (ms.foldl (fun o m => insert o m.1 m.2) o).Perm (ms ++ o)
  | [], _, _, _ => List.Perm.refl _
  | (key, value) :: ms, o, hnd, hnew => by
    obtain ⟨hnot, hnd⟩ := List.nodup_cons.mp hnd
    have hkey : find o key = none := hnew (key, value) List.mem_cons_self
    have hstep := foldl_insert_perm ms (insert o key value) hnd (by
      intro m hm
      have hne : ¬key = m.1 := fun e => hnot (List.mem_map.mpr ⟨m, hm, e.symm⟩)
      rw [find_insert hkey, if_neg hne]
      exact hnew m (List.mem_cons_of_mem _ hm))
    refine hstep.trans (((insert_perm hkey value).append_left ms).trans ?_)
    exact List.perm_middle

theorem ofList_perm {ms : ByteMap ν} (h : (keys ms).Nodup) : (ofList ms).Perm ms := by
  have := foldl_insert_perm ms [] h (fun _ _ => rfl)
  rwa [List.append_nil] at this

theorem insert_last : ∀ {o : ByteMap ν} {key : Bytes} (value : ν), (∀ m ∈ o, m.1 < key) →
    insert o key value = o ++ [(key, value)]
  | [], _, _, _ => rfl
  | (k, v) :: rest, key, value, h => by
    have hlt : k < key := h (k, v) List.mem_cons_self
    have h1 : ¬key < k := fun hc => key_lt_irrefl _ (key_lt_trans hlt hc)
    have h2 : ¬key = k := by rintro rfl; exact key_lt_irrefl _ hlt
    rw [insert, if_neg h1, if_neg h2, insert_last value fun m hm => h m (List.mem_cons_of_mem _ hm)]
    rfl

theorem foldl_insert_of_sorted : ∀ (ms o : ByteMap ν), Sorted (o ++ ms) →
    ms.foldl (fun o m => insert o m.1 m.2) o = o ++ ms
  | [], o, _ => by simp
  | (key, value) :: ms, o, h => by
    have hlast : insert o key value = o ++ [(key, value)] := by
      refine insert_last value fun m hm => ?_
      exact (List.pairwise_append.mp h).2.2 m hm (key, value) List.mem_cons_self
    rw [List.foldl_cons, hlast, foldl_insert_of_sorted ms (o ++ [(key, value)]) (by simpa using h)]
    simp

/-- Members already in key order make up the map as they stand. -/
theorem ofList_of_sorted (h : Sorted o) : ofList o = o := by
  exact foldl_insert_of_sorted o [] h

theorem nodup_of_sorted (h : Sorted o) : (keys o).Nodup := by
  refine List.pairwise_map.mpr (h.imp ?_)
  intro a b hab heq
  rw [heq] at hab
  exact key_lt_irrefl _ hab

theorem sorted_erase (h : Sorted o) (key : Bytes) : Sorted (erase o key) :=
  h.sublist List.filter_sublist

/-- A member taken out and put back. -/
theorem insert_erase (h : Sorted o) {value : ν} (hf : find o key = some value) :
    insert (erase o key) key value = o := by
  induction o with
  | nil => cases hf
  | cons p rest ih =>
    obtain ⟨k, v⟩ := p
    rw [Sorted, List.pairwise_cons] at h
    rw [find] at hf
    split at hf
    · next hk =>
      subst hk
      cases hf
      have hrest : erase ((k, value) :: rest) k = rest := by
        rw [erase, List.filter_cons_of_neg (by simp)]
        refine List.filter_eq_self.mpr fun m hm => decide_eq_true fun he => ?_
        exact key_lt_irrefl k (he ▸ h.1 m hm)
      rw [hrest]
      cases rest with
      | nil => rfl
      | cons m rest => rw [insert, if_pos (h.1 m List.mem_cons_self)]
    · next hk =>
      have hmem : key ∈ keys rest := by
        by_contra hn
        rw [find_eq_none.mpr hn] at hf
        cases hf
      obtain ⟨m, hm, rfl⟩ := List.mem_map.mp hmem
      have hlt : ¬m.1 < k := fun hlt => key_lt_irrefl _ (key_lt_trans hlt (h.1 m hm))
      have herase : erase ((k, v) :: rest) m.1 = (k, v) :: erase rest m.1 :=
        List.filter_cons_of_pos (decide_eq_true hk)
      rw [herase, insert_cons_of_ne hk, if_neg hlt, ih h.2 hf]

/-! ## Members -/

theorem mem_of_find : ∀ {o : ByteMap ν} {k : Bytes} {w : ν}, o.find k = some w → (k, w) ∈ o
  | [], _, _, h => by cases h
  | (k', v) :: rest, k, w, h => by
    rw [find] at h
    split at h
    · next hk =>
      cases h
      rw [hk]
      exact List.mem_cons_self
    · exact List.mem_cons_of_mem _ (mem_of_find h)

theorem find_of_mem : ∀ {o : ByteMap ν}, (keys o).Nodup → ∀ {m : Bytes × ν}, m ∈ o →
    o.find m.1 = some m.2
  | [], _, _, h => absurd h List.not_mem_nil
  | (k, v) :: rest, hnd, m, hm => by
    rw [keys, List.map_cons, List.nodup_cons] at hnd
    rw [find]
    rcases List.mem_cons.mp hm with rfl | hm
    · rw [if_pos rfl]
    · have hne : ¬k = m.1 := fun he => hnd.1 (List.mem_map.mpr ⟨m, hm, he.symm⟩)
      rw [if_neg hne]
      exact find_of_mem hnd.2 hm

/-- Maps are equal when every key is looked up alike. -/
theorem eq_of_find_eq {o' : ByteMap ν} (h : Sorted o) (h' : Sorted o')
    (hf : ∀ k, o.find k = o'.find k) : o = o' := by
  have hnd := nodup_of_sorted h
  have hnd' := nodup_of_sorted h'
  have hperm : o.Perm o' := by
    rw [List.perm_ext_iff_of_nodup hnd.of_map hnd'.of_map]
    intro m
    constructor
    · intro hm
      exact mem_of_find ((hf m.1).symm.trans (find_of_mem hnd hm))
    · intro hm
      exact mem_of_find ((hf m.1).trans (find_of_mem hnd' hm))
  refine hperm.eq_of_pairwise (fun a b _ _ hab hba => ?_) h h'
  exact absurd (key_lt_trans hab hba) (key_lt_irrefl _)

/-- A map is what its members say, when it has no other keys than they have. -/
theorem eq_ofList_of_members (hs : Sorted o) (hnd : (keys ms).Nodup)
    (hkeys : ∀ k ∈ keys o, k ∈ keys ms) (hfind : ∀ m ∈ ms, o.find m.1 = some m.2) :
    o = ofList ms := by
  refine eq_of_find_eq hs (sorted_ofList ms) fun k => ?_
  rw [find_ofList hnd]
  by_cases hk : k ∈ keys ms
  · obtain ⟨m, hm, rfl⟩ := List.mem_map.mp hk
    rw [hfind m hm, find_of_mem hnd hm]
  · rw [find_eq_none.mpr hk, find_eq_none.mpr fun hk' => hk (hkeys k hk')]

theorem find_erase_of_ne {key k : Bytes} (h : k ≠ key) : ∀ o : ByteMap ν,
    find (erase o key) k = find o k
  | [] => rfl
  | (j, v) :: rest => by
    have ih := find_erase_of_ne h rest
    by_cases hj : j = key
    · subst hj
      rw [erase, List.filter_cons_of_neg (by simp), find, if_neg (Ne.symm h)]
      exact ih
    · rw [erase, List.filter_cons_of_pos (by simpa using hj), find, find]
      exact if_congr Iff.rfl rfl ih

theorem mem_keys_erase {key k : Bytes} :
    k ∈ keys (erase o key) ↔ k ∈ keys o ∧ k ≠ key := by
  simp only [keys, erase, List.mem_map, List.mem_filter, decide_eq_true_eq]
  constructor
  · rintro ⟨m, ⟨hm, hne⟩, rfl⟩
    exact ⟨⟨m, hm, rfl⟩, hne⟩
  · rintro ⟨⟨m, hm, rfl⟩, hne⟩
    exact ⟨m, ⟨hm, hne⟩, rfl⟩

/-! ## Keys with a common beginning -/

/-- Between a beginning and a key that has it, there are only keys that have it. -/
theorem begins_of_between : ∀ {p k s : Bytes}, ¬k < p → ¬p ++ s < k → p <+: k
  | [], k, _, _, _ => List.nil_prefix
  | c :: p, [], _, h, _ => absurd (List.nil_lt_cons c p) h
  | c :: p, d :: k, s, hlow, hhigh => by
    rw [List.cons_append] at hhigh
    rw [List.cons_lt_cons_iff, not_or, not_and] at hlow hhigh
    have hcd : c = d := by
      have h1 := hlow.1
      have h2 := hhigh.1
      rw [UInt8.lt_iff_toNat_lt] at h1 h2
      exact UInt8.toNat_inj.mp (by omega)
    subst hcd
    exact List.cons_prefix_cons.mpr ⟨rfl, begins_of_between (hlow.2 rfl) (hhigh.2 rfl)⟩

theorem not_lt_of_begins {p k : Bytes} (h : p <+: k) : ¬k < p := by
  obtain ⟨s, rfl⟩ := h
  induction p with
  | nil => exact List.not_lt_nil _
  | cons c p ih =>
    rw [List.cons_append, List.cons_lt_cons_iff, not_or, not_and]
    exact ⟨fun h => absurd h (by rw [UInt8.lt_iff_toNat_lt]; omega), fun _ => ih⟩

/-- One `lower_bound` finds out whether any key has a given beginning. -/
theorem lowerBound_begins {p : Bytes} : ∀ {m : ByteMap ν}, Sorted m →
    ((∃ e, lowerBound m p = some e ∧ p <+: e.1) ↔ ∃ e ∈ m, p <+: e.1)
  | [], _ => by simp [lowerBound]
  | a :: rest, hs => by
    rw [lowerBound, List.find?_cons]
    by_cases ha : a.1 < p
    · have hno : ¬p <+: a.1 := fun hp => not_lt_of_begins hp ha
      simp only [ha, decide_true, Bool.not_true]
      refine (lowerBound_begins hs.of_cons).trans ⟨?_, ?_⟩
      · rintro ⟨e, he, hp⟩
        exact ⟨e, List.mem_cons_of_mem a he, hp⟩
      · rintro ⟨e, he, hp⟩
        rcases List.mem_cons.mp he with rfl | he
        · exact absurd hp hno
        · exact ⟨e, he, hp⟩
    · simp only [ha, decide_false, Bool.not_false, Option.some.injEq, exists_eq_left']
      constructor
      · intro hp
        exact ⟨a, List.mem_cons_self, hp⟩
      · rintro ⟨e, he, s, hs'⟩
        rcases List.mem_cons.mp he with rfl | he
        · exact ⟨s, hs'⟩
        · refine begins_of_between (s := s) ha fun hlt => ?_
          rw [hs'] at hlt
          exact key_lt_irrefl _ (key_lt_trans hlt (List.rel_of_pairwise_cons hs he))

end ByteMap

end Usk
