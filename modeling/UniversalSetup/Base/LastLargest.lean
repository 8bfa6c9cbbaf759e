import Mathlib.Data.List.Induction

/-!
# The last of the largest

A loop that goes over a list and keeps an element whenever it qualifies and is not smaller than the
one kept so far ends with the last of the largest qualifying elements.
-/

namespace Usk

variable {α β : Type}

/-- `a` qualifies, and among those around it that qualify it is the last of the largest. -/
structure LastLargest (ok : α → Prop) (size : α → Nat) (before : List α) (a : α) (after : List α) :
    Prop where
  qualifies : ok a
  before : ∀ b ∈ before, ok b → size b ≤ size a
  after : ∀ b ∈ after, ok b → size b < size a

theorem lastLargest_map {ok : β → Prop} {size : β → Nat} {f : α → β} {before after : List α}
    {a : α} : LastLargest ok size (before.map f) (f a) (after.map f) ↔
      LastLargest (fun x => ok (f x)) (fun x => size (f x)) before a after :=
  ⟨fun h => ⟨h.qualifies, List.forall_mem_map.mp h.before, List.forall_mem_map.mp h.after⟩,
    fun h => ⟨h.qualifies, List.forall_mem_map.mpr h.before, List.forall_mem_map.mpr h.after⟩⟩

/-- One round of the loop. -/
def keepLarger (ok : α → Bool) (size : α → Nat) (kept a : α) : α :=
  if ok a && decide (size kept ≤ size a) then a else kept

variable {ok : α → Bool} {size : α → Nat}

theorem size_foldl_le {n : Nat} : ∀ {l : List α} {kept : α}, size kept ≤ n →
    (∀ b ∈ l, ok b = true → size b ≤ n) → size (l.foldl (keepLarger ok size) kept) ≤ n
  | [], _, h, _ => h
  | a :: l, kept, h, hl => by
    rw [List.foldl_cons]
    refine size_foldl_le ?_ fun b hb => hl b (List.mem_cons_of_mem a hb)
    unfold keepLarger
    split
    · next hkeep =>
      rw [Bool.and_eq_true] at hkeep
      exact hl a List.mem_cons_self hkeep.1
    · exact h

theorem foldl_eq_self : ∀ {l : List α} {kept : α},
    (∀ b ∈ l, ok b = true → size b < size kept) → l.foldl (keepLarger ok size) kept = kept
  | [], _, _ => rfl
  | a :: l, kept, h => by
    have hkeep : keepLarger ok size kept a = kept := by
      refine if_neg fun hkeep => ?_
      rw [Bool.and_eq_true, decide_eq_true_eq] at hkeep
      exact absurd (h a List.mem_cons_self hkeep.1) (Nat.not_lt.mpr hkeep.2)
    rw [List.foldl_cons, hkeep]
    exact foldl_eq_self fun b hb => h b (List.mem_cons_of_mem a hb)

theorem LastLargest.foldl_eq {before after : List α} {a first : α} (hfirst : size first = 0)
    (h : LastLargest (fun x => ok x = true) size before a after) :
    (before ++ a :: after).foldl (keepLarger ok size) first = a := by
  have hsize : size (before.foldl (keepLarger ok size) first) ≤ size a :=
    size_foldl_le (hfirst ▸ Nat.zero_le _) h.before
  have hkeep : keepLarger ok size (before.foldl (keepLarger ok size) first) a = a :=
    if_pos (by rw [h.qualifies, decide_eq_true hsize]; rfl)
  rw [List.foldl_append, List.foldl_cons, hkeep]
  exact foldl_eq_self h.after

/-- The loop ends with what it began with, or with the last of the largest. -/
theorem foldl_lastLargest {first : α} (hfirst : size first = 0) (l : List α) :
    (∀ b ∈ l, ok b = false) ∧ l.foldl (keepLarger ok size) first = first ∨
      ∃ before a after, l = before ++ a :: after ∧
        LastLargest (fun x => ok x = true) size before a after ∧
        l.foldl (keepLarger ok size) first = a := by
  induction l using List.reverseRecOn with
  | nil => exact .inl ⟨List.forall_mem_nil _, rfl⟩
  | append_singleton l x ih =>
    rw [List.foldl_append, List.foldl_cons, List.foldl_nil]
    cases hx : ok x with
    | false =>
      have hkeep : ∀ kept, keepLarger ok size kept x = kept := fun kept => by simp [keepLarger, hx]
      rw [hkeep]
      rcases ih with ⟨hnone, hfold⟩ | ⟨before, a, after, rfl, hlargest, hfold⟩
      · exact .inl ⟨List.forall_mem_append.mpr ⟨hnone, List.forall_mem_singleton.mpr hx⟩, hfold⟩
      · refine .inr ⟨before, a, after ++
          [x], by simp, ⟨hlargest.qualifies, hlargest.before, ?_⟩, hfold⟩
        refine List.forall_mem_append.mpr ⟨hlargest.after, List.forall_mem_singleton.mpr fun h =>
          ?_⟩
        rw [hx] at h
        cases h
    | true =>
      rcases ih with ⟨hnone, hfold⟩ | ⟨before, a, after, rfl, hlargest, hfold⟩
      · refine .inr ⟨l, x, [], rfl, ⟨hx, fun b hb h => ?_, List.forall_mem_nil _⟩, ?_⟩
        · rw [hnone b hb] at h
          cases h
        · rw [hfold, keepLarger, hx, hfirst]
          rfl
      · rw [hfold]
        by_cases hsize : size a ≤ size x
        · refine .inr ⟨before ++ a :: after, x, [], rfl, ⟨hx, ?_, List.forall_mem_nil _⟩, ?_⟩
          · intro b hb hok
            rcases List.mem_append.mp hb with hb | hb
            · exact Nat.le_trans (hlargest.before b hb hok) hsize
            · rcases List.mem_cons.mp hb with rfl | hb
              · exact hsize
              · exact Nat.le_trans (Nat.le_of_lt (hlargest.after b hb hok)) hsize
          · rw [keepLarger, hx, decide_eq_true hsize]
            rfl
        · refine .inr ⟨before, a, after ++
            [x], by simp, ⟨hlargest.qualifies, hlargest.before, ?_⟩, ?_⟩
          · refine List.forall_mem_append.mpr ⟨hlargest.after, List.forall_mem_singleton.mpr
              fun _ => ?_⟩
            exact Nat.lt_of_not_le hsize
          · rw [keepLarger, decide_eq_false hsize, Bool.and_false]
            rfl

end Usk
