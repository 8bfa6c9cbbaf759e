import UniversalSetup.Json.Accepted

/-!
# Budgets without an encoding

`CanonicalBudget` walks a tree and counts what its canonical text would cost the parser, without
writing that text. Its entry points take the fields of an object that is never built.
-/

namespace Usk.Json

/-- `CanonicalObjectView`: a map from keys to values, so its fields stand in key order. -/
structure CanonicalObjectView where
  fields : List (Bytes × Value)
  sorted : Sorted fields
  wellFormed : ∀ m ∈ fields, WellFormed m.2

/-- `canonical_object`. -/
def canonicalObject (view : CanonicalObjectView) : Bytes :=
  0x7b :: (canonicalMembers view.fields ++ [0x7d])

/-- The counters of `CanonicalBudget`. -/
structure Budget where
  bytes : Nat := 0
  values : Nat := 0

namespace Budget

variable (limits : ParseLimits)

/-- `bytes`. -/
def spend (count : Nat) (b : Budget) : Result Budget :=
  if count > limits.maxBytes - b.bytes then .error "JSON input exceeds byte budget"
  else .ok { b with bytes := b.bytes + count }

/-- `count_value`. -/
def countValue (depth : Nat) (b : Budget) : Result Budget :=
  if depth > limits.maxDepth then .error "JSON exceeds depth budget"
  else if b.values = limits.maxValues then .error "JSON exceeds value budget"
  else .ok { b with values := b.values + 1 }

/-- The cost of one byte of a string. -/
def byteCost (ch : UInt8) : Nat :=
  if ch = 0x22 || ch = 0x5c || ch = 0x08 || ch = 0x0c || ch = 0x0a || ch = 0x0d || ch = 0x09 then 2
  else if ch < 0x20 then 6
  else 1

/-- The loop of `string`. -/
def stringBytes : Bytes → Budget → Result Budget
  | [], b => .ok b
  | ch :: rest, b => do
    let b ← spend limits (byteCost ch) b
    stringBytes rest b

/-- `string`. -/
def string (text : Bytes) (b : Budget) : Result Budget :=
  if text.length > limits.maxStringBytes then .error "JSON string exceeds budget"
  else if !validUtf8 text then .error "JSON string is not valid UTF-8"
  else do
    let b ← spend limits 2 b
    stringBytes limits text b

/-- The loop that counts decimal digits. -/
def digits (number : Nat) : Nat :=
  if number ≥ 10 then digits (number / 10) + 1 else 1

/-- The comma before every element but the first. -/
def separator (first : Bool) (b : Budget) : Result Budget :=
  if first then .ok b else spend limits 1 b

/-- `child`; `value` is the walk over the child. -/
def child (value : Nat → Budget → Result Budget) (depth : Nat) (b : Budget) : Result Budget :=
  if depth ≥ limits.maxDepth then .error "JSON exceeds depth budget" else value (depth + 1) b

/-- `member`, which also returns the bytes of its value. -/
def member (key : Bytes) (value : Nat → Budget → Result Budget) (depth : Nat) (first : Bool)
    (b : Budget) : Result (Nat × Budget) := do
  let b ← separator limits first b
  let b ← string limits key b
  let b ← spend limits 1 b
  let after ← child limits value depth b
  pure (after.bytes - b.bytes, after)

mutual

/-- `value`. -/
def value : Value → Nat → Budget → Result Budget
  | .null, depth, b => do
    let b ← countValue limits depth b
    spend limits 4 b
  | .boolean flag, depth, b => do
    let b ← countValue limits depth b
    spend limits (if flag then 4 else 5) b
  | .unsigned number, depth, b => do
    let b ← countValue limits depth b
    spend limits (digits number.toNat) b
  | .string text, depth, b => do
    let b ← countValue limits depth b
    string limits text b
  | .array entries, depth, b => do
    let b ← countValue limits depth b
    let b ← spend limits 2 b
    items entries depth true b
  | .object fields, depth, b => do
    let b ← countValue limits depth b
    let b ← spend limits 2 b
    members fields depth true b

/-- The loop over an array. -/
def items : List Value → Nat → Bool → Budget → Result Budget
  | [], _, _, b => .ok b
  | entry :: rest, depth, first, b => do
    let b ← separator limits first b
    let b ← child limits (fun d b => value entry d b) depth b
    items rest depth false b

/-- The loop over an object. -/
def members : List (Bytes × Value) → Nat → Bool → Budget → Result Budget
  | [], _, _, b => .ok b
  | (key, entry) :: rest, depth, first, b => do
    let (_, b) ← member limits key (fun d b => value entry d b) depth first b
    members rest depth false b

end

/-- The loop of `object_member`: the bytes of the selected value, once it was met. -/
def selectMembers (selected : Option Bytes) : List (Bytes × Value) → Bool → Option Nat → Budget →
    Result (Option Nat × Budget)
  | [], _, found, b => .ok (found, b)
  | (key, entry) :: rest, first, found, b => do
    let (encoded, b) ← member limits key (value limits entry) 0 first b
    selectMembers selected rest false (if selected = some key then some encoded else found) b

/-- `object_member`: the bytes of the selected value and the final counters. -/
def objectMember (fields : List (Bytes × Value)) (selected : Option Bytes) :
    Result (Nat × Budget) := do
  let b ← countValue limits 0 {}
  let b ← spend limits 2 b
  let (found, b) ← selectMembers limits selected fields true none b
  if selected.isSome && found.isNone then .error "JSON selected object member is absent"
  else .ok (found.getD 0, b)

end Budget

/-- `require_canonical_object_parse_limits`. -/
def requireCanonicalObjectParseLimits (view : CanonicalObjectView) (limits : ParseLimits) :
    Result Unit := do
  let _ ← Budget.objectMember limits view.fields none

/-- `require_canonical_object_encoded_size`. -/
def requireCanonicalObjectEncodedSize (view : CanonicalObjectView) (limits : ParseLimits) :
    Result Nat := do
  let (_, b) ← Budget.objectMember limits view.fields none
  pure b.bytes

/-- `require_canonical_object_member_parse_limits`. -/
def requireCanonicalObjectMemberParseLimits (view : CanonicalObjectView) (limits : ParseLimits)
    (selected : Bytes) : Result Nat := do
  let (bytes, _) ← Budget.objectMember limits view.fields (some selected)
  pure bytes

/-! ## What a walk costs -/

namespace Budget

variable {limits : ParseLimits}

/-- Counters that have not passed their limits. -/
def Within (limits : ParseLimits) (b : Budget) : Prop :=
  b.bytes ≤ limits.maxBytes ∧ b.values ≤ limits.maxValues

/-- A walk that costs `n` bytes and `k` values, and passes when `P` holds and both are left. -/
def Costs (limits : ParseLimits) (x : Budget → Result Budget) (P : Prop) (n k : Nat) : Prop :=
  ∀ b, Within limits b →
    Verdict (x b) (P ∧ Within limits ⟨b.bytes + n, b.values + k⟩) ⟨b.bytes + n, b.values + k⟩

theorem Costs.congr {x : Budget → Result Budget} {P Q : Prop} {n m k l : Nat}
    (h : Costs limits x P n k) (hpq : P ↔ Q) (hn : n = m) (hk : k = l) : Costs limits x Q m l := by
  subst hn hk
  intro b hb
  exact (h b hb).congr (and_congr_left fun _ => hpq)

theorem costs_id : Costs limits Except.ok True 0 0 := by
  intro b hb
  exact ⟨fun _ => rfl, fun hn => absurd ⟨trivial, hb⟩ hn⟩

/-- Walks in sequence. The second one is only entered with counters that are within the limits. -/
theorem Costs.bind {x y : Budget → Result Budget} {P Q : Prop} {n m k l : Nat}
    (hx : Costs limits x P n k) (hy : Costs limits y Q m l) :
    Costs limits (fun b => x b >>= y) (P ∧ Q) (n + m) (k + l) := by
  intro b hb
  by_cases h : P ∧ Within limits ⟨b.bytes + n, b.values + k⟩
  · have hbind := (hx b hb).bind (hy _ h.2)
    rw [← Nat.add_assoc, ← Nat.add_assoc]
    exact hbind.congr ⟨fun ⟨hp, hq⟩ => ⟨⟨hp.1, hq.1⟩, hq.2⟩, fun ⟨hp, hw⟩ => ⟨h, hp.2, hw⟩⟩
  · obtain ⟨e, he⟩ := (hx b hb).2 h
    refine ⟨fun hp => absurd ⟨hp.1.1, ?_⟩ h, fun _ => ⟨e, by dsimp only; rw [he]; rfl⟩⟩
    have := hp.2
    simp only [Within] at this ⊢
    omega

theorem costs_spend (n : Nat) : Costs limits (spend limits n) True n 0 := by
  intro b hb
  unfold spend
  simp only [Within, Verdict] at hb ⊢
  split
  · exact ⟨fun hp => by omega, fun _ => ⟨_, rfl⟩⟩
  · exact ⟨fun _ => rfl, fun hn => absurd ⟨trivial, by omega, by omega⟩ hn⟩

theorem costs_countValue (d : Nat) :
    Costs limits (countValue limits d) (d ≤ limits.maxDepth) 0 1 := by
  intro b hb
  unfold countValue
  simp only [Within, Verdict] at hb ⊢
  split
  · exact ⟨fun hp => by omega, fun _ => ⟨_, rfl⟩⟩
  · split
    · exact ⟨fun hp => by omega, fun _ => ⟨_, rfl⟩⟩
    · exact ⟨fun _ => rfl, fun hn => by omega⟩

/-! ## Strings and numbers -/

theorem byteCost_eq (ch : UInt8) : byteCost ch = (escapeByte ch).length := by
  unfold byteCost escapeByte
  split
  · next h =>
    simp only [Bool.or_eq_true, decide_eq_true_eq] at h
    rcases h with ((((((rfl | rfl) | rfl) | rfl) | rfl) | rfl) | rfl) <;> rfl
  · next h =>
    simp only [Bool.or_eq_true, decide_eq_true_eq, not_or] at h
    simp only [h, if_false]
    split <;> rfl

theorem costs_stringBytes : ∀ text : Bytes,
    Costs limits (stringBytes limits text) True (text.flatMap escapeByte).length 0
  | [] => costs_id
  | ch :: rest => by
    refine ((costs_spend (byteCost ch)).bind (costs_stringBytes rest)).congr (by simp) ?_ rfl
    rw [List.flatMap_cons, List.length_append, byteCost_eq]

theorem costs_string (text : Bytes) : Costs limits (string limits text)
    (text.length ≤ limits.maxStringBytes ∧ validUtf8 text = true) (escaped text).length 0 := by
  intro b hb
  unfold string
  split
  · next h => exact ⟨fun hp => absurd hp.1.1 (Nat.not_le.mpr h), fun _ => ⟨_, rfl⟩⟩
  · next h =>
    split
    · next hu => exact ⟨fun hp => by simp [hp.1.2] at hu, fun _ => ⟨_, rfl⟩⟩
    · next hu =>
      have hcost := ((costs_spend 2).bind (@costs_stringBytes limits text)).congr
        (Q := text.length ≤ limits.maxStringBytes ∧ validUtf8 text = true)
        (m := (escaped text).length) (l := 0)
        ⟨fun _ => ⟨Nat.not_lt.mp h, by simpa using hu⟩, fun _ => ⟨trivial, trivial⟩⟩
        (by rw [escaped]; simp; omega) rfl
      exact hcost b hb

theorem digits_eq (n : Nat) : digits n = (decimal n).length := by
  induction n using Nat.strong_induction_on with
  | _ n ih =>
    unfold digits
    split
    · next h => rw [decimal_append h, List.length_append, ih _ (by omega), List.length_singleton]
    · next h => rw [decimal_of_lt (Nat.not_le.mp h), List.length_singleton]

/-! ## Values -/

theorem costs_separator (first : Bool) :
    Costs limits (separator limits first) True (if first then 0 else 1) 0 := by
  cases first with
  | false => exact costs_spend 1
  | true => exact costs_id

theorem costs_child {walk : Nat → Budget → Result Budget} {d : Nat} {P : Prop} {n k : Nat}
    (h : Costs limits (walk (d + 1)) P n k) :
    Costs limits (child limits walk d) (d < limits.maxDepth ∧ P) n k := by
  intro b hb
  unfold child
  split
  · next hd => exact ⟨fun hp => absurd hp.1.1 (Nat.not_lt.mpr hd), fun _ => ⟨_, rfl⟩⟩
  · next hd =>
    exact (h b hb).congr ⟨fun hp => ⟨⟨Nat.not_le.mp hd, hp.1⟩, hp.2⟩, fun hp => ⟨hp.1.2, hp.2⟩⟩

/-- What a parser asks of a value that it meets at depth `d`. -/
def Allowed (limits : ParseLimits) (d : Nat) (v : Value) : Prop :=
  d + depth v ≤ limits.maxDepth ∧
    AllStrings (fun s => s.length ≤ limits.maxStringBytes ∧ validUtf8 s = true) v

/-- The walk over a value costs its canonical text and its number of values. -/
def Measures (limits : ParseLimits) (v : Value) : Prop :=
  ∀ d, Costs limits (value limits v d) (Allowed limits d v) (canonical v).length (count v)

theorem Measures.child {v : Value} (h : Measures limits v) (d : Nat) :
    Costs limits (child limits (value limits v) d) (Allowed limits d (.array [v]))
      (canonical v).length (count v) := by
  refine (costs_child (h (d + 1))).congr ?_ rfl rfl
  simp only [Allowed, depth, depthItems, AllStrings, AllStringsItems, and_true]
  constructor
  · rintro ⟨hd, hd', hs⟩
    exact ⟨by omega, hs⟩
  · rintro ⟨hd, hs⟩
    exact ⟨by omega, by omega, hs⟩

/-- The cost of the elements that follow each other, with a comma before all but the first. -/
def sequenceCost (first empty : Bool) (n : Nat) : Nat :=
  if first || empty then n else n + 1

theorem items_nil (d : Nat) (first : Bool) : items limits [] d first = Except.ok := by
  funext b
  rw [items]

theorem items_cons (v : Value) (rest : List Value) (d : Nat) (first : Bool) :
    items limits (v :: rest) d first = fun b => separator limits first b >>= fun b =>
      child limits (value limits v) d b >>= items limits rest d false := by
  funext b
  rw [items]

theorem costs_items {d : Nat} : ∀ {vs : List Value}, (∀ v ∈ vs, Measures limits v) →
    ∀ first : Bool, Costs limits (items limits vs d first)
      (vs = [] ∨ Allowed limits d (.array vs))
      (sequenceCost first vs.isEmpty (canonicalItems vs).length) (countItems vs)
  | [], _, first => by
    rw [items_nil]
    exact costs_id.congr (by simp) (by simp [sequenceCost, canonicalItems]) rfl
  | v :: rest, h, first => by
    have hv := (h v List.mem_cons_self).child d
    have hrest := costs_items (d := d) (fun w hw => h w (List.mem_cons_of_mem v hw)) false
    rw [items_cons]
    refine ((costs_separator first).bind (hv.bind hrest)).congr ?_ ?_ ?_
    · simp only [Allowed, depth, depthItems, AllStrings, AllStringsItems, and_true, true_and,
        List.cons_ne_nil, false_or]
      constructor
      · rintro ⟨⟨hd, hs⟩, rfl | ⟨hd', hs'⟩⟩
        · exact ⟨by simpa [depthItems] using hd, hs, trivial⟩
        · exact ⟨by omega, hs, hs'⟩
      · rintro ⟨hd, hs, hs'⟩
        exact ⟨⟨by omega, hs⟩, Or.inr ⟨by omega, hs'⟩⟩
    · rw [canonicalItems]
      cases rest with
      | nil => cases first <;> simp [sequenceCost, canonicalItems, Nat.add_comm]
      | cons w rest => cases first <;> simp [sequenceCost, Nat.add_comm, Nat.add_left_comm]
    · rw [countItems, Nat.zero_add]

/-- What a parser asks of the members of an object that it meets at depth `d`. -/
def AllowedMember (limits : ParseLimits) (d : Nat) (key : Bytes) (v : Value) : Prop :=
  (key.length ≤ limits.maxStringBytes ∧ validUtf8 key = true) ∧ Allowed limits d (.array [v])

/-- The cost of a member: its comma, its key, a colon and its value. -/
def memberCost (first : Bool) (key : Bytes) (v : Value) : Nat :=
  (if first then 0 else 1) + ((escaped key).length + 1) + (canonical v).length

/-- `member` returns the length of its value's text besides the counters. -/
theorem member_verdict {key : Bytes} {v : Value} (h : Measures limits v) (d : Nat) (first : Bool)
    {b : Budget} (hb : Within limits b) :
    Verdict (member limits key (value limits v) d first b)
      (AllowedMember limits d key v ∧
        Within limits ⟨b.bytes + memberCost first key v, b.values + count v⟩)
      ((canonical v).length, ⟨b.bytes + memberCost first key v, b.values + count v⟩) := by
  have hstart := ((costs_separator first).bind ((costs_string key).bind
    (@costs_spend limits 1))) b hb
  have hmember : member limits key (value limits v) d first b =
      ((separator limits first b >>= fun b => string limits key b >>= spend limits 1) >>= fun b =>
        child limits (value limits v) d b >>= fun after =>
          (.ok (after.bytes - b.bytes, after) : Result (Nat × Budget))) := by
    simp only [member, bind_assoc]
    rfl
  rw [hmember, memberCost, ← Nat.add_assoc]
  by_cases hpre : (True ∧ (key.length ≤ limits.maxStringBytes ∧ validUtf8 key = true) ∧ True) ∧
      Within limits ⟨b.bytes + ((if first then 0 else 1) + ((escaped key).length + 1)),
        b.values + (0 + (0 + 0))⟩
  · have hchild := h.child d _ hpre.2
    have hret := Verdict.ok ((canonical v).length, (⟨b.bytes + ((if first then 0 else 1) +
      ((escaped key).length + 1)) + (canonical v).length, b.values + count v⟩ : Budget))
    refine (hstart.bind (hchild.bind (b := _) (Q := True) ?_)).congr ?_
    · simpa using hret
    · exact ⟨fun hp => ⟨⟨hp.1.1.2.1, hp.2.1.1⟩, hp.2.1.2⟩,
        fun hp => ⟨hpre, ⟨hp.1.2, hp.2⟩, trivial⟩⟩
  · obtain ⟨e, he⟩ := hstart.2 hpre
    constructor
    · rintro ⟨hp, hw⟩
      simp only [Within] at hw hpre
      exact absurd ⟨⟨trivial, hp.1, trivial⟩, by omega, by omega⟩ hpre
    · dsimp only at he
      exact fun _ => ⟨e, by rw [he]; rfl⟩

theorem costs_members {d : Nat} : ∀ {ms : List (Bytes × Value)},
    (∀ m ∈ ms, Measures limits m.2) → ∀ first : Bool, Costs limits (members limits ms d first)
      (ms = [] ∨ Allowed limits d (.object ms))
      (sequenceCost first ms.isEmpty (canonicalMembers ms).length) (countMembers ms)
  | [], _, first => by
    have hnil : members limits [] d first = Except.ok := by
      funext b
      rw [members]
    rw [hnil]
    exact costs_id.congr (by simp) (by simp [sequenceCost, canonicalMembers]) rfl
  | (k, v) :: rest, h, first => by
    have hv : Measures limits v := h (k, v) List.mem_cons_self
    have hrest := costs_members (d := d) (fun m hm => h m (List.mem_cons_of_mem (k, v) hm)) false
    have hone : Costs limits (fun b => member limits k (value limits v) d first b >>=
        fun r => .ok r.2) (AllowedMember limits d k v) (memberCost first k v) (count v) := by
      intro b hb
      exact ((member_verdict hv d first hb).bind (f := fun r => .ok r.2)
        (Verdict.ok _)).congr (and_iff_left trivial)
    have hcons : members limits ((k, v) :: rest) d first = fun b =>
        (member limits k (value limits v) d first b >>= fun r => .ok r.2) >>=
          members limits rest d false := by
      funext b
      rw [members, bind_assoc]
      rfl
    rw [hcons]
    refine (hone.bind hrest).congr ?_ ?_ (by rw [countMembers])
    · simp only [AllowedMember, Allowed, depth, depthItems, depthMembers, AllStrings,
        AllStringsItems, AllStringsMembers, and_true, List.cons_ne_nil, false_or]
      constructor
      · rintro ⟨⟨hk, hd, hs⟩, rfl | ⟨hd', hs'⟩⟩
        · exact ⟨by simpa [depthMembers] using hd, hk, hs, trivial⟩
        · exact ⟨by omega, hk, hs, hs'⟩
      · rintro ⟨hd, hk, hs, hs'⟩
        exact ⟨⟨hk, by omega, hs⟩, Or.inr ⟨by omega, hs'⟩⟩
    · rw [canonicalMembers, memberCost]
      cases rest with
      | nil => cases first <;> simp [sequenceCost, canonicalMembers] <;> omega
      | cons m rest => cases first <;> simp [sequenceCost] <;> omega

/-- A scalar: one value and the bytes of its text. -/
theorem measures_scalar {v : Value} {walk : Budget → Result Budget}
    (heq : ∀ d b, value limits v d b = countValue limits d b >>= walk) (hd : depth v = 0)
    (hc : count v = 1) (hwalk : Costs limits walk (AllStrings (fun s =>
      s.length ≤ limits.maxStringBytes ∧ validUtf8 s = true) v) (canonical v).length 0) :
    Measures limits v := by
  intro d
  rw [show value limits v d = fun b => countValue limits d b >>= walk from funext (heq d)]
  exact ((costs_countValue d).bind hwalk).congr (by rw [Allowed, hd, Nat.add_zero])
    (Nat.zero_add _) (by rw [hc])

/-- A container: one value, two brackets and the elements. -/
theorem measures_container {v : Value} {walk : Nat → Budget → Result Budget} {P : Nat → Prop}
    {n k : Nat} (heq : ∀ d b, value limits v d b = countValue limits d b >>= fun b =>
      spend limits 2 b >>= walk d) (hwalk : ∀ d, Costs limits (walk d) (P d) n k)
    (hp : ∀ d, d ≤ limits.maxDepth ∧ P d ↔ Allowed limits d v)
    (hn : (canonical v).length = 2 + n) (hk : count v = 1 + k) : Measures limits v := by
  intro d
  rw [show value limits v d = fun b => countValue limits d b >>= fun b =>
    spend limits 2 b >>= walk d from funext (heq d)]
  refine ((costs_countValue d).bind ((costs_spend 2).bind (hwalk d))).congr ?_ ?_ ?_
  · rw [true_and, hp]
  · rw [hn, Nat.zero_add]
  · rw [hk, Nat.zero_add]

/-- The walk over a value, by induction on the value. -/
theorem measures (v : Value) : Measures limits v := by
  induction v using Value.induction with
  | null =>
    exact measures_scalar (fun d b => by rw [value]) rfl rfl (costs_spend 4)
  | boolean b =>
    refine measures_scalar (fun d b => by rw [value]) rfl rfl ?_
    cases b <;> exact costs_spend _
  | unsigned n =>
    refine measures_scalar (fun d b => by rw [value]) rfl rfl ?_
    rw [digits_eq]
    exact costs_spend _
  | string s =>
    exact measures_scalar (fun d b => by rw [value]) rfl rfl (costs_string s)
  | array vs ih =>
    refine measures_container (fun d b => by rw [value]) (fun d => costs_items ih true)
      (fun d => ?_) (by simp [canonical, sequenceCost]; omega) (by rw [count])
    cases vs with
    | nil => simp [Allowed, depth, depthItems, AllStrings, AllStringsItems]
    | cons v vs =>
      simp only [Allowed, reduceCtorEq, false_or, and_iff_right_iff_imp]
      omega
  | object ms ih =>
    refine measures_container (fun d b => by rw [value]) (fun d => costs_members ih true)
      (fun d => ?_) (by simp [canonical, sequenceCost]; omega) (by rw [count])
    cases ms with
    | nil => simp [Allowed, depth, depthMembers, AllStrings, AllStringsMembers]
    | cons m ms =>
      simp only [Allowed, reduceCtorEq, false_or, and_iff_right_iff_imp]
      omega

/-! ## Objects that are never built -/

/-- What `object_member` remembers of the selected key. -/
def selectedBytes (selected : Option Bytes) : List (Bytes × Value) → Option Nat → Option Nat
  | [], found => found
  | (key, v) :: rest, found =>
    selectedBytes selected rest (if selected = some key then some (canonical v).length else found)

theorem selectedBytes_of_not_mem {selected : Option Bytes} : ∀ {ms : List (Bytes × Value)}
    (found : Option Nat), (∀ k ∈ ByteMap.keys ms, selected ≠ some k) →
    selectedBytes selected ms found = found
  | [], _, _ => rfl
  | (k, v) :: rest, found, h => by
    rw [selectedBytes, if_neg (h k List.mem_cons_self)]
    exact selectedBytes_of_not_mem found fun j hj => h j (List.mem_cons_of_mem k hj)

theorem selectedBytes_of_find {key : Bytes} {v : Value} : ∀ {ms : List (Bytes × Value)}
    (found : Option Nat), (ByteMap.keys ms).Nodup → ByteMap.find ms key = some v →
    selectedBytes (some key) ms found = some (canonical v).length
  | [], _, _, h => by cases h
  | (k, w) :: rest, found, hnd, h => by
    rw [ByteMap.keys, List.map_cons, List.nodup_cons] at hnd
    rw [ByteMap.find] at h
    rw [selectedBytes]
    split at h
    · next hk =>
      cases h
      subst hk
      rw [if_pos rfl]
      refine selectedBytes_of_not_mem _ fun j hj hk => ?_
      cases hk
      exact hnd.1 hj
    · next hk =>
      rw [if_neg (by simpa using Ne.symm hk)]
      exact selectedBytes_of_find found hnd.2 h

/-- The loop of `object_member` is the loop of `value` with a note of the selected key. -/
theorem selectMembers_eq (selected : Option Bytes) : ∀ (ms : List (Bytes × Value))
    (first : Bool) (found : Option Nat) {b : Budget}, Within limits b →
    selectMembers limits selected ms first found b = members limits ms 0 first b >>= fun after =>
      .ok (selectedBytes selected ms found, after)
  | [], first, found, b, _ => by
    rw [selectMembers, members]
    rfl
  | (k, v) :: rest, first, found, b, hb => by
    have hone := @member_verdict limits k v (measures v) 0 first _ hb
    rw [selectMembers, members, bind_assoc]
    by_cases hp : AllowedMember limits 0 k v ∧
        Within limits ⟨b.bytes + memberCost first k v, b.values + count v⟩
    · rw [hone.1 hp]
      exact selectMembers_eq selected rest false _ hp.2
    · obtain ⟨e, he⟩ := hone.2 hp
      rw [he]
      rfl

theorem objectMember_eq (fields : List (Bytes × Value)) {selected : Option Bytes}
    (hs : selected.isSome = true → (selectedBytes selected fields none).isSome = true) :
    objectMember limits fields selected = value limits (.object fields) 0 {} >>= fun after =>
      .ok ((selectedBytes selected fields none).getD 0, after) := by
  have hstart := ((costs_countValue 0).bind (@costs_spend limits 2)) {}
    ⟨Nat.zero_le _, Nat.zero_le _⟩
  have hvalue : value limits (.object fields) 0 {} =
      (countValue limits 0 {} >>= spend limits 2) >>= members limits fields 0 true := by
    rw [value, bind_assoc]
  rw [objectMember, ← bind_assoc, hvalue]
  by_cases hp : (0 ≤ limits.maxDepth ∧ True) ∧ Within limits ⟨0 + (0 + 2), 0 + (1 + 0)⟩
  · have hok := hstart.1 hp
    dsimp only at hok
    rw [hok]
    have hsel := selectMembers_eq selected fields true none hp.2
    change (selectMembers limits selected fields true none _ >>= _) =
      (members limits fields 0 true _ >>= _)
    rw [hsel, bind_assoc]
    refine congrArg _ (funext fun after => ?_)
    cases selected with
    | none => rfl
    | some key =>
      obtain ⟨n, hn⟩ := Option.isSome_iff_exists.mp (hs rfl)
      rw [hn]
      rfl
  · obtain ⟨e, he⟩ := hstart.2 hp
    dsimp only at he
    rw [he]
    rfl

/-- The whole walk over the fields of an object. -/
theorem objectMember_verdict (fields : List (Bytes × Value)) {selected : Option Bytes}
    (hs : selected.isSome = true → (selectedBytes selected fields none).isSome = true) :
    Verdict (objectMember limits fields selected)
      ((canonical (.object fields)).length ≤ limits.maxBytes ∧ limits.Allow (.object fields))
      ((selectedBytes selected fields none).getD 0,
        ⟨(canonical (.object fields)).length, count (.object fields)⟩) := by
  have hvalue := @measures limits (.object fields) 0 {}
    ⟨Nat.zero_le _, Nat.zero_le _⟩
  rw [objectMember_eq fields hs]
  simp only [Nat.zero_add] at hvalue
  refine (hvalue.bind (f := fun after =>
    .ok ((selectedBytes selected fields none).getD 0, after)) (Verdict.ok _)).congr ?_
  simp only [Allowed, Within, ParseLimits.Allow, Nat.zero_add, and_true]
  exact ⟨fun h => ⟨h.2.1, h.1.1, h.2.2, h.1.2⟩, fun h => ⟨⟨h.2.1, h.2.2.2⟩, h.1, h.2.2.1⟩⟩

end Budget

variable (view : CanonicalObjectView) (limits : ParseLimits)

/-- The fields of a view, as an object. -/
theorem CanonicalObjectView.encodes : Encodes (.object view.fields) (canonicalObject view) :=
  encodes_canonical (wellFormed_object.mpr ⟨view.sorted, view.wellFormed⟩)

theorem CanonicalObjectView.parse_verdict : Verdict (parse (canonicalObject view) limits)
    ((canonical (.object view.fields)).length ≤ limits.maxBytes ∧
      limits.Allow (.object view.fields)) (.object view.fields) :=
  parse_encodes view.encodes

/--
The walk accepts a view exactly when the parser accepts its canonical text, and then it reports the
length of that text and the length of the text of a selected member.
-/
theorem canonical_object_budget_exact :
    ((∃ u, requireCanonicalObjectParseLimits view limits = .ok u) ↔
      ∃ v, parse (canonicalObject view) limits = .ok v) ∧
    ((∃ u, requireCanonicalObjectParseLimits view limits = .ok u) →
      requireCanonicalObjectEncodedSize view limits = .ok (canonicalObject view).length ∧
      ∀ selected v, ByteMap.find view.fields selected = some v →
        requireCanonicalObjectMemberParseLimits view limits selected =
          .ok (canonical v).length) := by
  have hall := @Budget.objectMember_verdict limits view.fields none (fun h => by cases h)
  have hparse := view.parse_verdict limits
  have hlimits : (∃ u, requireCanonicalObjectParseLimits view limits = .ok u) ↔
      (canonical (.object view.fields)).length ≤ limits.maxBytes ∧
        limits.Allow (.object view.fields) := by
    rw [requireCanonicalObjectParseLimits]
    constructor
    · rintro ⟨u, hu⟩
      rw [bind_eq_ok] at hu
      obtain ⟨r, hr, -⟩ := hu
      exact (hall.eq_of_ok hr).1
    · intro h
      exact ⟨(), by rw [hall.1 h]; rfl⟩
  refine ⟨hlimits.trans ⟨fun h => ⟨_, hparse.1 h⟩, fun ⟨v, hv⟩ => (hparse.eq_of_ok hv).1⟩, ?_⟩
  intro hu
  have h := hlimits.mp hu
  constructor
  · rw [requireCanonicalObjectEncodedSize, hall.1 h]
    rfl
  · intro selected v hv
    have hfound := Budget.selectedBytes_of_find none (ByteMap.nodup_of_sorted view.sorted) hv
    have hone := @Budget.objectMember_verdict limits view.fields (some selected)
      (fun _ => by rw [hfound]; rfl)
    rw [requireCanonicalObjectMemberParseLimits, hone.1 h, hfound]
    rfl

/-- A view with a nested value and a key that needs an escape. -/
def sampleView : CanonicalObjectView where
  fields := [([0x01], .array [.unsigned 10, .null]), (ascii "b", .boolean false)]
  sorted := List.pairwise_pair.mpr (by decide)
  wellFormed := by simp [WellFormed, WellFormedItems]

/-- The sizes of the view and of one member, with two levels allowed. -/
theorem sampleView_exact :
    requireCanonicalObjectEncodedSize sampleView { maxDepth := 2 } =
        .ok (canonicalObject sampleView).length ∧
      requireCanonicalObjectMemberParseLimits sampleView { maxDepth := 2 } [0x01] =
        .ok (canonical (.array [.unsigned 10, .null])).length := by
  have h := (canonical_object_budget_exact sampleView { maxDepth := 2 }).2 ⟨(), by decide +kernel⟩
  exact ⟨h.1, h.2 _ _ rfl⟩

end Usk.Json
