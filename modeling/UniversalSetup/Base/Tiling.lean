import Mathlib.Order.Lattice
import Mathlib.Data.List.Pairwise
import Mathlib.Data.List.Chain

/-!
# Tilings of a range

Half-open ranges that follow each other without a gap tile the range from the first to the last
bound: they cover it exactly, and no two of them overlap. Both properties are about the ranges as a
collection, so they hold in any other order, too.
-/

namespace Usk

variable {ι α : Type} [LinearOrder α] {lo hi : ι → α}

/-- `x` is in the range of `i`. -/
def InRange (lo hi : ι → α) (i : ι) (x : α) : Prop :=
  lo i ≤ x ∧ x < hi i

/-- The ranges of `l` tile the range from `first` to `last`. -/
structure Tiles (lo hi : ι → α) (l : List ι) (first last : α) : Prop where
  covers : ∀ x, (first ≤ x ∧ x < last) ↔ ∃ i ∈ l, InRange lo hi i x
  disjoint : l.Pairwise fun i j => ∀ x, InRange lo hi i x → ¬InRange lo hi j x

theorem Tiles.perm {l l' : List ι} {first last : α} (h : Tiles lo hi l first last)
    (hperm : l.Perm l') : Tiles lo hi l' first last := by
  refine ⟨fun x => ?_, (hperm.pairwise_iff ?_).mp h.disjoint⟩
  · rw [h.covers]
    exact exists_congr fun i => and_congr_left fun _ => hperm.mem_iff
  · exact fun hij x hj hi => hij x hi hj

/-- In a chain of ranges without gaps, everything starts at or after the end of the first range. -/
theorem le_lo_of_chain : ∀ {i : ι} {l : List ι}, (i :: l).IsChain (fun a b => hi a = lo b) →
    (∀ j ∈ i :: l, lo j ≤ hi j) → ∀ j ∈ l, hi i ≤ lo j
  | i, k :: l, hchain, hle, j, hj => by
    obtain ⟨hik, hrest⟩ := List.isChain_cons_cons.mp hchain
    rcases List.mem_cons.mp hj with rfl | hj
    · exact le_of_eq hik
    · have hk := hle k (List.mem_cons_of_mem i List.mem_cons_self)
      have hkj := le_lo_of_chain hrest (fun m hm => hle m (List.mem_cons_of_mem i hm)) j hj
      exact (le_of_eq hik).trans (hk.trans hkj)

theorem disjoint_of_chain : ∀ {l : List ι}, l.IsChain (fun a b => hi a = lo b) →
    (∀ j ∈ l, lo j ≤ hi j) → l.Pairwise fun i j => ∀ x, InRange lo hi i x → ¬InRange lo hi j x
  | [], _, _ => .nil
  | i :: l, hchain, hle => by
    refine List.pairwise_cons.mpr ⟨fun j hj x hx hx' => ?_, disjoint_of_chain hchain.tail
      fun j hj => hle j (List.mem_cons_of_mem i hj)⟩
    have hij := le_lo_of_chain hchain hle j hj
    exact absurd (hx.2.trans_le (hij.trans hx'.1)) (lt_irrefl x)

/-- A chain of ranges covers everything from its first to its last bound. -/
theorem covers_of_chain : ∀ {i : ι} {l : List ι} {last : α},
    (i :: l).IsChain (fun a b => hi a = lo b) → (∀ j ∈ i :: l, lo j ≤ hi j) →
    ((i :: l).getLast?.map hi = some last) →
    ∀ x, (lo i ≤ x ∧ x < last) ↔ ∃ j ∈ i :: l, InRange lo hi j x
  | i, [], last, _, _, hlast, x => by
    have heq : hi i = last := by simpa using hlast
    rw [← heq]
    simp [InRange]
  | i, k :: l, last, hchain, hle, hlast, x => by
    obtain ⟨hik, hrest⟩ := List.isChain_cons_cons.mp hchain
    have hle' : ∀ j ∈ k :: l, lo j ≤ hi j := fun j hj => hle j (List.mem_cons_of_mem i hj)
    rw [List.getLast?_cons_cons] at hlast
    have ih := covers_of_chain hrest hle' hlast x
    have hi_i : lo i ≤ hi i := hle i List.mem_cons_self
    -- what lies before the end of the first range is in it, the rest is in the others
    by_cases hx : x < hi i
    · have hend : hi i ≤ last := by
        obtain ⟨m, hm, hlast'⟩ := Option.map_eq_some_iff.mp hlast
        have hmem := List.mem_of_getLast? hm
        have him : hi i ≤ lo m := le_lo_of_chain hchain hle m hmem
        exact him.trans ((hle' m hmem).trans (le_of_eq hlast'))
      constructor
      · rintro ⟨hlo, -⟩
        exact ⟨i, List.mem_cons_self, hlo, hx⟩
      · rintro ⟨j, hj, hjx⟩
        rcases List.mem_cons.mp hj with rfl | hj
        · exact ⟨hjx.1, hx.trans_le hend⟩
        · have hij := le_lo_of_chain hchain hle j hj
          exact absurd (hx.trans_le (hij.trans hjx.1)) (lt_irrefl x)
    · have hxi : hi i ≤ x := not_lt.mp hx
      constructor
      · rintro ⟨-, hlt⟩
        obtain ⟨j, hj, hjx⟩ := ih.mp ⟨hik ▸ hxi, hlt⟩
        exact ⟨j, List.mem_cons_of_mem i hj, hjx⟩
      · rintro ⟨j, hj, hjx⟩
        rcases List.mem_cons.mp hj with rfl | hj
        · exact absurd hjx.2 hx
        · exact ⟨hi_i.trans hxi, (ih.mpr ⟨j, hj, hjx⟩).2⟩

/-- A chain of ranges is a tiling. -/
theorem tiles_of_chain {l : List ι} {first last : α} (hchain : l.IsChain fun a b => hi a = lo b)
    (hle : ∀ j ∈ l, lo j ≤ hi j) (hfirst : l.head?.map lo = some first)
    (hlast : l.getLast?.map hi = some last) : Tiles lo hi l first last := by
  refine ⟨?_, disjoint_of_chain hchain hle⟩
  cases l with
  | nil => cases hfirst
  | cons i l =>
    cases hfirst
    exact covers_of_chain hchain hle hlast

end Usk
