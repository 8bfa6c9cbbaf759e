import UniversalSetup.Json.Parser

/-!
# Compact encodings

The runtime writes JSON in three places: `canonical`, the transaction journal and the budgets that
only count bytes. They agree on the grammar but not on the order of members or on the escapes.
`Encodes` is what they share: no white space, any member order, any of the escapes the writers use.

A value is measured as the reader measures it, and a `Verdict` says when a computation returns.
-/

namespace Usk.Json

variable {ms ms' : List (Bytes × Value)}

/-! ## Encodings -/

/-- The one-letter escapes that the writers use, with the byte each one stands for. -/
def shortEscapes : List (UInt8 × UInt8) :=
  [(0x22, 0x22), (0x5c, 0x5c), (0x08, 0x62), (0x0c, 0x66), (0x0a, 0x6e), (0x0d, 0x72),
    (0x09, 0x74)]

/-- `EncodesString s e`: `e` is the inside of a JSON string that stands for the bytes `s`. -/
inductive EncodesString : Bytes → Bytes → Prop
  | nil : EncodesString [] []
  | plain {c : UInt8} {s e : Bytes} : ¬c < 0x20 → c ≠ 0x22 → c ≠ 0x5c → EncodesString s e →
      EncodesString (c :: s) (c :: e)
  | short {c x : UInt8} {s e : Bytes} : (c, x) ∈ shortEscapes → EncodesString s e →
      EncodesString (c :: s) (0x5c :: x :: e)
  | control {c : UInt8} {s e : Bytes} : c < 0x20 → EncodesString s e →
      EncodesString (c :: s) (0x5c :: 0x75 :: 0x30 :: 0x30 :: hexByte (c.toNat / 16) ::
        hexByte (c.toNat % 16) :: e)

mutual

/-- `Encodes v t`: the text `t` is a compact encoding of `v`. -/
inductive Encodes : Value → Bytes → Prop
  | null : Encodes .null (ascii "null")
  | true : Encodes (.boolean true) (ascii "true")
  | false : Encodes (.boolean false) (ascii "false")
  | unsigned (n : UInt64) : Encodes (.unsigned n) (decimal n.toNat)
  | string {s e : Bytes} : EncodesString s e → Encodes (.string s) (0x22 :: (e ++ [0x22]))
  | array {vs : List Value} {t : Bytes} : EncodesItems vs t →
      Encodes (.array vs) (0x5b :: (t ++ [0x5d]))
  | object {ms : List (Bytes × Value)} {t : Bytes} : EncodesMembers ms t →
      (ByteMap.keys ms).Nodup → Encodes (.object (ByteMap.ofList ms)) (0x7b :: (t ++ [0x7d]))

/-- The elements of an array. -/
inductive EncodesItems : List Value → Bytes → Prop
  | noItems : EncodesItems [] []
  | lastItem {v : Value} {t : Bytes} : Encodes v t → EncodesItems [v] t
  | item {v w : Value} {vs : List Value} {t u : Bytes} : Encodes v t → EncodesItems (w :: vs) u →
      EncodesItems (v :: w :: vs) (t ++ 0x2c :: u)

/-- The members of an object, in the order in which the text has them. -/
inductive EncodesMembers : List (Bytes × Value) → Bytes → Prop
  | noMembers : EncodesMembers [] []
  | lastMember {k e : Bytes} {v : Value} {t : Bytes} : EncodesString k e → Encodes v t →
      EncodesMembers [(k, v)] (0x22 :: (e ++ 0x22 :: 0x3a :: t))
  | member {k e : Bytes} {v : Value} {m : Bytes × Value} {ms : List (Bytes × Value)} {t u : Bytes} :
      EncodesString k e → Encodes v t → EncodesMembers (m :: ms) u →
      EncodesMembers ((k, v) :: m :: ms) (0x22 :: (e ++ 0x22 :: 0x3a :: (t ++ 0x2c :: u)))

end

/-! ## What the limits measure -/

mutual

/-- Nesting depth. An empty container needs no deeper level. -/
def depth : Value → Nat
  | .array items => depthItems items
  | .object members => depthMembers members
  | _ => 0

def depthItems : List Value → Nat
  | [] => 0
  | v :: rest => max (depth v + 1) (depthItems rest)

def depthMembers : List (Bytes × Value) → Nat
  | [] => 0
  | (_, v) :: rest => max (depth v + 1) (depthMembers rest)

end

mutual

/-- The number of values, the value itself included. Keys do not count. -/
def count : Value → Nat
  | .array items => 1 + countItems items
  | .object members => 1 + countMembers members
  | _ => 1

def countItems : List Value → Nat
  | [] => 0
  | v :: rest => count v + countItems rest

def countMembers : List (Bytes × Value) → Nat
  | [] => 0
  | (_, v) :: rest => count v + countMembers rest

end

/-- What `finishString` asks of a decoded string. -/
def Reader.Admits (r : Reader) (s : Bytes) : Prop :=
  s.length ≤ r.limits.maxStringBytes ∧ r.validString s = true

mutual

/-- Every string of a value, its keys included, satisfies `P`. -/
def AllStrings (P : Bytes → Prop) : Value → Prop
  | .string s => P s
  | .array items => AllStringsItems P items
  | .object members => AllStringsMembers P members
  | _ => True

def AllStringsItems (P : Bytes → Prop) : List Value → Prop
  | [] => True
  | v :: rest => AllStrings P v ∧ AllStringsItems P rest

def AllStringsMembers (P : Bytes → Prop) : List (Bytes × Value) → Prop
  | [] => True
  | (k, v) :: rest => P k ∧ AllStrings P v ∧ AllStringsMembers P rest

end

/-- A value that the reader accepts with this depth budget after counting `n` values. -/
def Reader.Fits (r : Reader) (budget n : Nat) (v : Value) : Prop :=
  depth v < budget ∧ n + count v ≤ r.limits.maxValues ∧ AllStrings r.Admits v

theorem depthMembers_perm (h : ms.Perm ms') : depthMembers ms = depthMembers ms' := by
  induction h with
  | nil => rfl
  | cons m _ ih => obtain ⟨k, v⟩ := m; simp only [depthMembers, ih]
  | swap m m' l =>
    obtain ⟨k, v⟩ := m
    obtain ⟨k', v'⟩ := m'
    simp only [depthMembers]
    omega
  | trans _ _ ih1 ih2 => rw [ih1, ih2]

theorem countMembers_perm (h : ms.Perm ms') : countMembers ms = countMembers ms' := by
  induction h with
  | nil => rfl
  | cons m _ ih => obtain ⟨k, v⟩ := m; simp only [countMembers, ih]
  | swap m m' l =>
    obtain ⟨k, v⟩ := m
    obtain ⟨k', v'⟩ := m'
    simp only [countMembers]
    omega
  | trans _ _ ih1 ih2 => rw [ih1, ih2]

theorem allStringsMembers_iff {P : Bytes → Prop} : ∀ {ms : List (Bytes × Value)},
    AllStringsMembers P ms ↔ ∀ m ∈ ms, P m.1 ∧ AllStrings P m.2
  | [] => by simp [AllStringsMembers]
  | (k, v) :: rest => by
    rw [AllStringsMembers, allStringsMembers_iff, List.forall_mem_cons, and_assoc]

theorem allStringsItems_iff {P : Bytes → Prop} : ∀ {vs : List Value},
    AllStringsItems P vs ↔ ∀ v ∈ vs, AllStrings P v
  | [] => by simp [AllStringsItems]
  | v :: rest => by
    rw [AllStringsItems, allStringsItems_iff, List.forall_mem_cons]

theorem AllStrings.mono {P Q : Bytes → Prop} (h : ∀ s, P s → Q s) {v : Value} :
    AllStrings P v → AllStrings Q v := by
  induction v using Value.induction with
  | null => exact id
  | boolean => exact id
  | unsigned => exact id
  | string s => exact h s
  | array vs ih =>
    simp only [AllStrings, allStringsItems_iff]
    exact fun hp v hv => ih v hv (hp v hv)
  | object ms ih =>
    simp only [AllStrings, allStringsMembers_iff]
    exact fun hp m hm => ⟨h _ (hp m hm).1, ih m hm (hp m hm).2⟩

/-- The strings of a value have bounded length. -/
theorem allStrings_and {P Q : Bytes → Prop} {v : Value} (hp : AllStrings P v)
    (hq : AllStrings Q v) : AllStrings (fun s => P s ∧ Q s) v := by
  induction v using Value.induction with
  | null => trivial
  | boolean b => trivial
  | unsigned n => trivial
  | string s => exact ⟨hp, hq⟩
  | array items ih =>
    rw [AllStrings, allStringsItems_iff] at hp hq ⊢
    exact fun v hv => ih v hv (hp v hv) (hq v hv)
  | object members ih =>
    rw [AllStrings, allStringsMembers_iff] at hp hq ⊢
    exact fun m hm => ⟨⟨(hp m hm).1, (hq m hm).1⟩, ih m hm (hp m hm).2 (hq m hm).2⟩

theorem exists_stringBound (v : Value) : ∃ n, AllStrings (fun s => s.length ≤ n) v := by
  have hlist : ∀ {α : Type} {Q : Nat → α → Prop}, (∀ a m n, m ≤ n → Q m a → Q n a) →
      ∀ l : List α, (∀ a ∈ l, ∃ n, Q n a) → ∃ n, ∀ a ∈ l, Q n a := by
    intro α Q hmono l
    induction l with
    | nil => exact fun _ => ⟨0, by simp⟩
    | cons a l ih =>
      intro h
      obtain ⟨m, hm⟩ := h a List.mem_cons_self
      obtain ⟨n, hn⟩ := ih fun b hb => h b (List.mem_cons_of_mem _ hb)
      refine ⟨max m n, List.forall_mem_cons.mpr ⟨hmono a m _ (by omega) hm, fun b hb => ?_⟩⟩
      exact hmono b n _ (by omega) (hn b hb)
  have hmono : ∀ (v : Value) (m n : Nat), m ≤ n → AllStrings (fun s => s.length ≤ m) v →
      AllStrings (fun s => s.length ≤ n) v :=
    fun v m n h => AllStrings.mono fun s hs => Nat.le_trans hs h
  induction v using Value.induction with
  | null => exact ⟨0, trivial⟩
  | boolean => exact ⟨0, trivial⟩
  | unsigned => exact ⟨0, trivial⟩
  | string s => exact ⟨s.length, Nat.le_refl _⟩
  | array vs ih =>
    obtain ⟨n, hn⟩ := hlist hmono vs ih
    exact ⟨n, allStringsItems_iff.mpr hn⟩
  | object ms ih =>
    obtain ⟨n, hn⟩ := hlist
      (Q := fun n m => m.1.length ≤ n ∧ AllStrings (fun s => s.length ≤ n) m.2)
      (fun m i j hij h => ⟨Nat.le_trans h.1 hij, hmono m.2 i j hij h.2⟩) ms (fun m hm => by
        obtain ⟨n, hn⟩ := ih m hm
        exact ⟨max m.1.length n, by omega, hmono m.2 n _ (by omega) hn⟩)
    exact ⟨n, allStringsMembers_iff.mpr hn⟩

theorem allStringsMembers_perm {P : Bytes → Prop} (h : ms.Perm ms') :
    AllStringsMembers P ms ↔ AllStringsMembers P ms' := by
  simp only [allStringsMembers_iff, h.mem_iff]

/-! ## Verdicts -/

/-- A computation that returns `a` when `P` holds and throws otherwise. -/
def Verdict {α : Type} (x : Result α) (P : Prop) (a : α) : Prop :=
  (P → x = .ok a) ∧ (¬P → ∃ e, x = .error e)

theorem Verdict.ok {α : Type} (a : α) : Verdict (.ok a) True a :=
  ⟨fun _ => rfl, fun h => absurd trivial h⟩

theorem Verdict.bind {α β : Type} {x : Result α} {f : α → Result β} {P Q : Prop} {a : α} {b : β}
    (hx : Verdict x P a) (hf : Verdict (f a) Q b) : Verdict (x >>= f) (P ∧ Q) b := by
  constructor
  · rintro ⟨hp, hq⟩
    rw [hx.1 hp]
    exact hf.1 hq
  · intro hn
    by_cases hp : P
    · obtain ⟨e, he⟩ := hf.2 fun hq => hn ⟨hp, hq⟩
      exact ⟨e, by rw [hx.1 hp]; exact he⟩
    · obtain ⟨e, he⟩ := hx.2 hp
      exact ⟨e, by rw [he]; rfl⟩

theorem Verdict.congr {α : Type} {x : Result α} {P Q : Prop} {a : α} (h : Verdict x P a)
    (hpq : P ↔ Q) : Verdict x Q a := by
  rwa [← propext hpq]

/-- A verdict leaves only one value to return. -/
theorem Verdict.eq_of_ok {α : Type} {x : Result α} {P : Prop} {a b : α} (h : Verdict x P a)
    (hb : x = .ok b) : P ∧ b = a := by
  by_cases hp : P
  · have := h.1 hp
    rw [hb] at this
    exact ⟨hp, Except.ok.inj this⟩
  · obtain ⟨e, he⟩ := h.2 hp
    rw [hb] at he
    cases he

/-! ## Strings -/

theorem Reader.finishString_verdict (r : Reader) (s : Bytes) :
    Verdict (r.finishString s) (r.Admits s) s := by
  unfold Reader.finishString Reader.Admits
  constructor
  · rintro ⟨h1, h2⟩
    rw [if_neg (by omega), if_neg (by simp [h2])]
  · intro hn
    split
    · exact ⟨_, rfl⟩
    · next h1 =>
      split
      · exact ⟨_, rfl⟩
      · next h2 => exact absurd ⟨by omega, by simpa using h2⟩ hn

theorem short_simpleEscape {c x : UInt8} (h : (c, x) ∈ shortEscapes) :
    simpleEscape x = some c := by
  simp only [shortEscapes, List.mem_cons, Prod.mk.injEq, List.not_mem_nil, or_false] at h
  rcases h with ⟨rfl, rfl⟩ | ⟨rfl, rfl⟩ | ⟨rfl, rfl⟩ | ⟨rfl, rfl⟩ | ⟨rfl, rfl⟩ | ⟨rfl, rfl⟩ |
    ⟨rfl, rfl⟩ <;> decide

/-- The escape of a control byte reads back as that byte. -/
theorem unicodeEscape_control {c : UInt8} (h : c < 0x20) :
    unicodeEscape 0x30 0x30 (hexByte (c.toNat / 16)) (hexByte (c.toNat % 16)) = .ok c.toNat := by
  have hall : ∀ n ∈ List.range 32,
      unicodeEscape 0x30 0x30 (hexByte (n / 16)) (hexByte (n % 16)) = .ok n := by
    intro n hn
    have : n < 32 := List.mem_range.mp hn
    interval_cases n <;> rfl
  exact hall c.toNat (List.mem_range.mpr (by simpa [UInt8.lt_iff_toNat_lt] using h))

theorem appendUtf8_ascii (output : Bytes) {c : UInt8} (h : c < 0x20) :
    appendUtf8 output c.toNat = output ++ [c] := by
  have hc : c.toNat < 0x20 := by simpa [UInt8.lt_iff_toNat_lt] using h
  rw [appendUtf8, if_pos (by omega), UInt8.ofNat_toNat]

/-! ## Numbers -/

/-- What may follow a value: the end, white space or the punctuation after an element. -/
def Delimited (tail : Bytes) : Prop :=
  ∀ c ∈ tail.head?, isSpace c = true ∨ c = 0x2c ∨ c = 0x5d ∨ c = 0x7d

theorem delimited_nil : Delimited [] := by
  intro c hc
  simp at hc

theorem delimited_cons {c : UInt8} (tail : Bytes)
    (h : isSpace c = true ∨ c = 0x2c ∨ c = 0x5d ∨ c = 0x7d) : Delimited (c :: tail) := by
  intro d hd
  simp only [List.head?_cons, Option.mem_def, Option.some.injEq] at hd
  rwa [← hd]

theorem numberLoop_decimal (n : Nat) : n ≤ maxUInt64 → ∀ tail : Bytes,
    numberLoop 0 (decimal n ++ tail) = numberLoop n tail := by
  induction n using Nat.strongRecOn with
  | _ n ih =>
    intro hmax tail
    have hmod : n % 10 < 10 := Nat.mod_lt _ (by decide)
    have hdig : (digitByte (n % 10)).toNat - 0x30 = n % 10 := by
      rw [digitByte_toNat hmod]; omega
    by_cases hlt : n < 10
    · rw [decimal_of_lt hlt, List.singleton_append, numberLoop]
      simp only [isDigit_digitByte hlt, digitByte_toNat hlt, reduceIte]
      rw [if_neg (by omega)]
      congr 1
      omega
    · rw [decimal_append (by omega), List.append_assoc, ih (n / 10) (by omega) (by omega),
        List.singleton_append, numberLoop]
      simp only [isDigit_digitByte hmod, hdig, reduceIte]
      rw [if_neg (by unfold maxUInt64 at hmax ⊢; omega)]
      congr 1
      omega

theorem decimal_head (n : Nat) : n ≠ 0 → ∃ d rest, decimal n = d :: rest ∧ d ≠ 0x30 := by
  induction n using Nat.strongRecOn with
  | _ n ih =>
    intro hn
    by_cases hlt : n < 10
    · refine ⟨digitByte n, [], decimal_of_lt hlt, ?_⟩
      intro he
      have := congrArg UInt8.toNat he
      rw [digitByte_toNat hlt] at this
      have h30 : (0x30 : UInt8).toNat = 0x30 := rfl
      omega
    · obtain ⟨d, rest, hd, hne⟩ := ih (n / 10) (by omega) (by omega)
      exact ⟨d, rest ++ [digitByte (n % 10)], by rw [decimal_append (by omega), hd]; rfl, hne⟩

theorem delimited_not_digit {c : UInt8} {rest : Bytes} (h : Delimited (c :: rest)) :
    isDigit c = false ∧ floatingMark (c :: rest) = false := by
  rcases h c rfl with h | rfl | rfl | rfl
  · simp only [isSpace, Bool.or_eq_true, beq_iff_eq] at h
    rcases h with ((rfl | rfl) | rfl) | rfl <;> exact ⟨by decide, by rfl⟩
  all_goals exact ⟨by decide, by rfl⟩

theorem number_decimal {n : Nat} (hmax : n ≤ maxUInt64) {tail : Bytes} (ht : Delimited tail) :
    number (decimal n ++ tail) = .ok (n, tail) := by
  have hzero : leadingZero (decimal n ++ tail) = false := by
    by_cases hn : n = 0
    · subst hn
      cases tail with
      | nil => rfl
      | cons c rest => simpa [decimal, leadingZero] using (delimited_not_digit ht).1
    · obtain ⟨d, rest, hd, hne⟩ := decimal_head n hn
      rw [hd, List.cons_append]
      cases rest ++ tail with
      | nil => rfl
      | cons c rest => simp [leadingZero, hne]
  have hloop : numberLoop n tail = .ok (n, tail) := by
    cases tail with
    | nil => rfl
    | cons c rest => rw [numberLoop]; simp [(delimited_not_digit ht).1]
  have hfloat : floatingMark tail = false := by
    cases tail with
    | nil => rfl
    | cons c rest => exact (delimited_not_digit ht).2
  rw [number, if_neg (by simp [hzero]), numberLoop_decimal n hmax, hloop]
  show (if floatingMark tail = true then _ else _) = _
  rw [if_neg (by simp [hfloat])]

end Usk.Json
