import UniversalSetup.Base.Bytes

/-!
# Self-delimiting codes

A code is self-delimiting if a word of it can be told from whatever follows. Words of such a code
can be put one after the other without losing where one ends. A text with its length in front, ended
by a byte that is no digit, is such a word.
-/

namespace Usk

variable {α β γ : Type}

/-- A word can be told from what follows it. -/
def SelfDelimiting (encode : α → List γ) : Prop :=
  ∀ a b s t, encode a ++ s = encode b ++ t → a = b ∧ s = t

namespace SelfDelimiting

variable {encode : α → List γ} {encode' : β → List γ}

theorem pair (h : SelfDelimiting encode) (h' : SelfDelimiting encode') (separator : List γ) :
    SelfDelimiting fun x : α × β => encode x.1 ++ separator ++ encode' x.2 := by
  rintro ⟨a, a'⟩ ⟨b, b'⟩ s t heq
  simp only [List.append_assoc] at heq
  obtain ⟨rfl, hrest⟩ := h _ _ _ _ heq
  obtain ⟨rfl, rfl⟩ := h' _ _ _ _ (List.append_cancel_left hrest)
  exact ⟨rfl, rfl⟩

/-- An end that is always the same changes nothing. -/
theorem terminated (h : SelfDelimiting encode) (terminator : List γ) :
    SelfDelimiting fun a => encode a ++ terminator := by
  intro a b s t heq
  simp only [List.append_assoc] at heq
  obtain ⟨rfl, hrest⟩ := h _ _ _ _ heq
  exact ⟨rfl, List.append_cancel_left hrest⟩

/-- Words one after the other are told apart, if none is empty. -/
theorem flatMap_injective (h : SelfDelimiting encode) (hne : ∀ a, encode a ≠ []) :
    Function.Injective fun words : List α => words.flatMap encode := by
  intro xs
  induction xs with
  | nil =>
    intro ys heq
    cases ys with
    | nil => rfl
    | cons y ys => exact absurd (List.append_eq_nil_iff.mp heq.symm).1 (hne y)
  | cons x xs ih =>
    intro ys heq
    cases ys with
    | nil => exact absurd (List.append_eq_nil_iff.mp heq).1 (hne x)
    | cons y ys =>
      obtain ⟨rfl, hrest⟩ := h _ _ _ _ heq
      rw [ih hrest]

end SelfDelimiting

/-! ## Texts with their length -/

/-- A run of elements with a property ends at the first element without it. -/
theorem append_cons_inj_of_run {p : γ → Bool} : ∀ {run run' s t : List γ} {c c' : γ},
    (∀ x ∈ run, p x = true) → (∀ x ∈ run', p x = true) → p c = false → p c' = false →
    run ++ c :: s = run' ++ c' :: t → run = run' ∧ c = c' ∧ s = t
  | [], [], s, t, c, c', _, _, _, _, heq => ⟨rfl, (List.cons.inj heq).1, (List.cons.inj heq).2⟩
  | [], x :: run', s, t, c, c', _, hrun', hc, _, heq => by
    have hx := hrun' x List.mem_cons_self
    rw [← (List.cons.inj heq).1, hc] at hx
    cases hx
  | x :: run, [], s, t, c, c', hrun, _, _, hc', heq => by
    have hx := hrun x List.mem_cons_self
    rw [(List.cons.inj heq).1, hc'] at hx
    cases hx
  | x :: run, y :: run', s, t, c, c', hrun, hrun', hc, hc', heq => by
    obtain ⟨hxy, hrest⟩ := List.cons.inj heq
    obtain ⟨hruns, hends⟩ := append_cons_inj_of_run
      (fun z hz => hrun z (List.mem_cons_of_mem x hz))
      (fun z hz => hrun' z (List.mem_cons_of_mem y hz)) hc hc' hrest
    exact ⟨by rw [hxy, hruns], hends⟩

theorem digitByte_injOn {d e : Nat} (hd : d < 10) (he : e < 10) (h : digitByte d = digitByte e) :
    d = e := by
  have hnat := congrArg UInt8.toNat h
  rw [digitByte_toNat hd, digitByte_toNat he] at hnat
  omega

theorem map_digitByte_injOn : ∀ {ds es : List Nat}, (∀ d ∈ ds, d < 10) → (∀ e ∈ es, e < 10) →
    ds.map digitByte = es.map digitByte → ds = es
  | [], [], _, _, _ => rfl
  | [], e :: es, _, _, h => by cases h
  | d :: ds, [], _, _, h => by cases h
  | d :: ds, e :: es, hd, he, h => by
    obtain ⟨hhead, htail⟩ := List.cons.inj h
    rw [digitByte_injOn (hd d List.mem_cons_self) (he e List.mem_cons_self) hhead,
      map_digitByte_injOn (fun x hx => hd x (List.mem_cons_of_mem d hx))
        (fun x hx => he x (List.mem_cons_of_mem e hx)) htail]

/-- The digits that are written, the first one last. -/
theorem decimal_eq_map (n : Nat) :
    decimal n = ((if n = 0 then [0] else Nat.digits 10 n).map digitByte).reverse := by
  unfold decimal
  split
  · decide
  · rfl

theorem decimal_injective : Function.Injective decimal := by
  intro m n h
  rw [decimal_eq_map, decimal_eq_map, List.reverse_inj] at h
  have hdigits : ∀ k : Nat, ∀ d ∈ (if k = 0 then [0] else Nat.digits 10 k), d < 10 := by
    intro k d hd
    split at hd
    · rw [List.mem_singleton.mp hd]
      decide
    · exact Nat.digits_lt_base (by decide) hd
  have hvalue : ∀ k : Nat, Nat.ofDigits 10 (if k = 0 then [0] else Nat.digits 10 k) = k := by
    intro k
    split
    · next hk => rw [hk, Nat.ofDigits_singleton]
    · exact Nat.ofDigits_digits 10 k
  rw [← hvalue m, ← hvalue n, map_digitByte_injOn (hdigits m) (hdigits n) h]

/-- A text after its length and a colon. -/
def counted (text : Bytes) : Bytes :=
  decimal text.length ++ 0x3a :: text

theorem selfDelimiting_counted : SelfDelimiting counted := by
  intro a b s t heq
  unfold counted at heq
  rw [List.append_assoc, List.append_assoc, List.cons_append, List.cons_append] at heq
  obtain ⟨hlength, -, htexts⟩ := append_cons_inj_of_run
    (fun x hx => isDigit_of_mem_decimal hx) (fun x hx => isDigit_of_mem_decimal hx)
    (by decide) (by decide) heq
  exact List.append_inj htexts (decimal_injective hlength)

end Usk
