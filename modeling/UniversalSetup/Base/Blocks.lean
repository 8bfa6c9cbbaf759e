import Mathlib.Data.List.Basic

/-!
# Blocks behind a buffer

Data that arrive in pieces of any length are collected in a buffer and handed on in blocks of one
size. `Buffered.fill` is the copying loop of such a consumer: it copies what fits, hands on a buffer
that has become full, and goes on with the rest. Whatever the pieces were, the consumer has been
given the whole blocks of the data, and what is held is the remainder (`Fed`).
-/

namespace Usk

/-- A consumer behind a buffer of `size` places, which is never left full. -/
structure Buffered (α σ : Type) (size : Nat) where
  state : σ
  held : List α
  room : held.length < size

namespace Buffered

variable {α σ : Type} {size : Nat} (full : σ → List α → σ)

/-- A piece that fits is copied behind what is held, and a full buffer is handed on. -/
def put (b : Buffered α σ size) (piece : List α) (h : b.held.length + piece.length ≤ size) :
    Buffered α σ size :=
  if hfull : b.held.length + piece.length = size then
    ⟨full b.state (b.held ++ piece), [], Nat.zero_lt_of_lt b.room⟩
  else
    ⟨b.state, b.held ++ piece, by rw [List.length_append]; omega⟩

/-- The copying loop. -/
def fill (b : Buffered α σ size) (data : List α) : Buffered α σ size :=
  if hdata : data.length = 0 then b
  else
    (b.put full (data.take (min data.length (size - b.held.length))) (by
      have := b.room
      rw [List.length_take]
      omega)).fill (data.drop (min data.length (size - b.held.length)))
termination_by data.length
decreasing_by
  have := b.room
  rw [List.length_drop]
  omega

/-! ## What the consumer has been given -/

variable {full} {start : σ} {data : List α} {b : Buffered α σ size}

/-- A consumer that began at `start` has been given the data, but for what is held. -/
def Fed (full : σ → List α → σ) (start : σ) (data : List α) (b : Buffered α σ size) : Prop :=
  ∃ blocks : List (List α), (∀ block ∈ blocks, block.length = size) ∧
    blocks.flatten ++ b.held = data ∧ b.state = blocks.foldl full start

theorem fed_empty (h : 0 < size) : Fed full start [] (⟨start, [], h⟩ : Buffered α σ size) :=
  ⟨[], List.forall_mem_nil _, rfl, rfl⟩

theorem Fed.put {start : σ} {data : List α} {b : Buffered α σ size} (hb : Fed full start data b)
    {piece : List α} (h : b.held.length + piece.length ≤ size) :
    Fed full start (data ++ piece) (b.put full piece h) := by
  obtain ⟨blocks, hsize, hdata, hstate⟩ := hb
  unfold Buffered.put
  split
  · next hfull =>
    refine ⟨blocks ++ [b.held ++ piece], ?_, ?_, ?_⟩
    · intro block hblock
      rcases List.mem_append.mp hblock with hblock | hblock
      · exact hsize block hblock
      · rw [List.mem_singleton.mp hblock, List.length_append, hfull]
    · simp only [List.flatten_append, List.flatten_singleton, List.append_nil, ← hdata,
        List.append_assoc]
    · simp only [List.foldl_append, List.foldl_cons, List.foldl_nil, hstate]
  · exact ⟨blocks, hsize, by rw [← hdata, List.append_assoc], hstate⟩

theorem Fed.fill (hb : Fed full start data b) (more : List α) :
    Fed full start (data ++ more) (b.fill full more) := by
  induction b, more using Buffered.fill.induct full generalizing data with
  | case1 b more hmore =>
    rw [Buffered.fill, dif_pos hmore, List.length_eq_zero_iff.mp hmore, List.append_nil]
    exact hb
  | case2 b more hmore ih =>
    rw [Buffered.fill, dif_neg hmore]
    have := ih (hb.put _)
    rwa [List.append_assoc, List.take_append_drop] at this

/-! ## The whole blocks of the data -/

/-- The whole blocks of the data, by their positions. -/
def blocksOf (size : Nat) (data : List α) : List (List α) :=
  (List.range (data.length / size)).map fun i => (data.drop (size * i)).take size

theorem blocksOf_short (h : data.length < size) : blocksOf size data = [] := by
  rw [blocksOf, Nat.div_eq_of_lt h]
  rfl

theorem blocksOf_append {block : List α} (h : block.length = size) (hsize : 0 < size)
    (data : List α) : blocksOf size (block ++ data) = block :: blocksOf size data := by
  have hcount : (block ++ data).length / size = data.length / size + 1 := by
    rw [List.length_append, h, Nat.add_comm, Nat.add_div_right _ hsize]
  have hnext (i : Nat) : (block ++ data).drop (size * (i + 1)) = data.drop (size * i) := by
    rw [Nat.mul_succ, Nat.add_comm, ← List.drop_drop, ← h, List.drop_left]
  simp only [blocksOf, hcount, List.range_succ_eq_map, List.map_cons, List.map_map, Nat.mul_zero,
    List.drop_zero, Function.comp_def, Nat.succ_eq_add_one, hnext]
  rw [← h, List.take_left]

theorem blocksOf_flatten (hsize : 0 < size) {rest : List α} (hrest : rest.length < size) :
    ∀ {blocks : List (List α)}, (∀ block ∈ blocks, block.length = size) →
      blocksOf size (blocks.flatten ++ rest) = blocks
  | [], _ => blocksOf_short hrest
  | block :: blocks, h => by
    rw [List.flatten_cons, List.append_assoc, blocksOf_append (h block List.mem_cons_self) hsize,
      blocksOf_flatten hsize hrest fun b hb => h b (List.mem_cons_of_mem _ hb)]

/-- The consumer's state depends on the data only, not on the pieces. -/
theorem Fed.state_eq (h : Fed full start data b) :
    b.state = (blocksOf size data).foldl full start := by
  obtain ⟨blocks, hsize, hdata, hstate⟩ := h
  rw [hstate, ← hdata, blocksOf_flatten (Nat.zero_lt_of_lt b.room) b.room hsize]

theorem length_flatten_blocks : ∀ {blocks : List (List α)},
    (∀ block ∈ blocks, block.length = size) → blocks.flatten.length = size * blocks.length
  | [], _ => rfl
  | block :: blocks, h => by
    rw [List.flatten_cons, List.length_append, h block List.mem_cons_self,
      length_flatten_blocks fun b hb => h b (List.mem_cons_of_mem _ hb), List.length_cons,
      Nat.mul_succ, Nat.add_comm]

theorem Fed.held_eq (h : Fed full start data b) :
    b.held = data.drop (size * (data.length / size)) := by
  obtain ⟨blocks, hsize, hdata, -⟩ := h
  have hlength := length_flatten_blocks hsize
  have hcount : data.length / size = blocks.length := by
    rw [← hdata, List.length_append, hlength, Nat.mul_add_div (Nat.zero_lt_of_lt b.room),
      Nat.div_eq_of_lt b.room, Nat.add_zero]
  rw [hcount, ← hlength, ← hdata, List.drop_left]

/-- The data determine what the consumer has become and what is held. -/
theorem Fed.unique {c : Buffered α σ size} (hb : Fed full start data b)
    (hc : Fed full start data c) : b = c := by
  have hstate := hb.state_eq.trans hc.state_eq.symm
  have hheld := hb.held_eq.trans hc.held_eq.symm
  cases b
  cases c
  cases hstate
  cases hheld
  rfl

theorem Fed.length_held (h : Fed full start data b) : b.held.length = data.length % size := by
  rw [h.held_eq, List.length_drop, Nat.mod_eq_sub]

/-- Any buffer has been fed what it holds since its present state. -/
theorem fed_self (b : Buffered α σ size) : Fed full b.state b.held b :=
  ⟨[], List.forall_mem_nil _, rfl, rfl⟩

theorem fill_nil (b : Buffered α σ size) : b.fill full [] = b := by
  rw [fill, dif_pos List.length_nil]

/-- Two pieces are their concatenation. -/
theorem fill_append (b : Buffered α σ size) (x y : List α) :
    b.fill full (x ++ y) = (b.fill full x).fill full y := by
  have hboth := (@fed_self _ _ _ full b).fill (x ++ y)
  rw [← List.append_assoc] at hboth
  exact hboth.unique (((fed_self b).fill x).fill y)

end Buffered

end Usk
