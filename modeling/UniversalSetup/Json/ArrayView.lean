import UniversalSetup.Json.Budget

/-!
# Budgets with an array replaced

`require_canonical_object_array_view_member_parse_limits` walks an object in which one array stands
for other entries, without building the object. The array is known by its address: the fields of a
view are references, so one value may be met several times. The walk has to meet the array once,
inside the selected member; then it is the walk over the object with the entries in the array's
place.
-/

namespace Usk.Json

variable {n : Nat}

/-! ## Values with addresses -/

/-- A value whose arrays have addresses. Only those of arrays are compared. -/
inductive Node where
  | null
  | boolean (flag : Bool)
  | unsigned (number : UInt64)
  | string (text : Bytes)
  | array (address : Nat) (items : List Node)
  | object (members : List (Bytes × Node))

variable {fields : List (Bytes × Node)}

theorem Node.induction {P : Node → Prop} (null : P .null) (boolean : ∀ b, P (.boolean b))
    (unsigned : ∀ n, P (.unsigned n)) (string : ∀ s, P (.string s))
    (array : ∀ address (items : List Node), (∀ v ∈ items, P v) → P (.array address items))
    (object : ∀ members : List (Bytes × Node), (∀ m ∈ members, P m.2) → P (.object members))
    (v : Node) : P v :=
  @Node.rec P (fun items => ∀ v ∈ items, P v) (fun members => ∀ m ∈ members, P m.2)
    (fun m => P m.2) null boolean unsigned string array object (by simp)
    (fun _ _ hv hvs => List.forall_mem_cons.mpr ⟨hv, hvs⟩) (by simp)
    (fun _ _ hm hms => List.forall_mem_cons.mpr ⟨hm, hms⟩) (fun _ _ hv => hv) v

mutual

/-- The value without addresses. -/
def Node.erase : Node → Value
  | .null => .null
  | .boolean flag => .boolean flag
  | .unsigned number => .unsigned number
  | .string text => .string text
  | .array _ items => .array (eraseItems items)
  | .object members => .object (eraseMembers members)

def eraseItems : List Node → List Value
  | [] => []
  | item :: rest => item.erase :: eraseItems rest

def eraseMembers : List (Bytes × Node) → List (Bytes × Value)
  | [] => []
  | (key, item) :: rest => (key, item.erase) :: eraseMembers rest

end

section

variable (address : Nat) (entries : List Value)

mutual

/-- The value in which an array stands for other entries. -/
def Node.replace : Node → Value
  | .null => .null
  | .boolean flag => .boolean flag
  | .unsigned number => .unsigned number
  | .string text => .string text
  | .array place items => .array (if place = address then entries else replaceItems items)
  | .object members => .object (replaceMembers members)

def replaceItems : List Node → List Value
  | [] => []
  | item :: rest => item.replace :: replaceItems rest

def replaceMembers : List (Bytes × Node) → List (Bytes × Value)
  | [] => []
  | (key, item) :: rest => (key, item.replace) :: replaceMembers rest

end

mutual

/-- How often an array is met. An array is no part of itself. -/
def Node.occurrences : Node → Nat
  | .null => 0
  | .boolean _ => 0
  | .unsigned _ => 0
  | .string _ => 0
  | .array place items => if place = address then 1 else occurrencesItems items
  | .object members => occurrencesMembers members

def occurrencesItems : List Node → Nat
  | [] => 0
  | item :: rest => item.occurrences + occurrencesItems rest

def occurrencesMembers : List (Bytes × Node) → Nat
  | [] => 0
  | (_, item) :: rest => item.occurrences + occurrencesMembers rest

end

end

theorem eraseItems_eq : ∀ items : List Node, eraseItems items = items.map Node.erase
  | [] => by rw [eraseItems, List.map_nil]
  | item :: rest => by rw [eraseItems, eraseItems_eq rest, List.map_cons]

theorem eraseMembers_eq : ∀ members : List (Bytes × Node),
    eraseMembers members = members.map fun m => (m.1, m.2.erase)
  | [] => by rw [eraseMembers, List.map_nil]
  | (key, item) :: rest => by rw [eraseMembers, eraseMembers_eq rest, List.map_cons]

section

variable {address : Nat} {entries : List Value}

theorem replaceItems_eq : ∀ items : List Node,
    replaceItems address entries items = items.map (Node.replace address entries)
  | [] => by rw [replaceItems, List.map_nil]
  | item :: rest => by rw [replaceItems, replaceItems_eq rest, List.map_cons]

theorem replaceMembers_eq : ∀ members : List (Bytes × Node),
    replaceMembers address entries members =
      members.map fun m => (m.1, m.2.replace address entries)
  | [] => by rw [replaceMembers, List.map_nil]
  | (key, item) :: rest => by rw [replaceMembers, replaceMembers_eq rest, List.map_cons]

theorem occurrencesItems_eq_zero : ∀ {items : List Node}, occurrencesItems address items = 0 →
    ∀ v ∈ items, v.occurrences address = 0
  | [], _, _, hv => nomatch hv
  | item :: rest, h, v, hv => by
    rw [occurrencesItems, Nat.add_eq_zero_iff] at h
    rcases List.mem_cons.mp hv with rfl | hv
    · exact h.1
    · exact occurrencesItems_eq_zero h.2 v hv

theorem occurrencesMembers_eq_zero : ∀ {members : List (Bytes × Node)},
    occurrencesMembers address members = 0 → ∀ m ∈ members, m.2.occurrences address = 0
  | [], _, _, hm => nomatch hm
  | (key, item) :: rest, h, m, hm => by
    rw [occurrencesMembers, Nat.add_eq_zero_iff] at h
    rcases List.mem_cons.mp hm with rfl | hm
    · exact h.1
    · exact occurrencesMembers_eq_zero h.2 m hm

/-- Where the array is not met, nothing is replaced. -/
theorem Node.replace_eq_erase (v : Node) :
    v.occurrences address = 0 → v.replace address entries = v.erase := by
  induction v using Node.induction with
  | null => intro _; rw [Node.replace, Node.erase]
  | boolean flag => intro _; rw [Node.replace, Node.erase]
  | unsigned number => intro _; rw [Node.replace, Node.erase]
  | string text => intro _; rw [Node.replace, Node.erase]
  | array place items ih =>
    intro h
    rw [Node.occurrences] at h
    split at h
    · cases h
    · next hplace =>
      rw [Node.replace, if_neg hplace, Node.erase, replaceItems_eq, eraseItems_eq]
      exact congrArg _ (List.map_congr_left fun v hv => ih v hv (occurrencesItems_eq_zero h v hv))
  | object members ih =>
    intro h
    rw [Node.occurrences] at h
    rw [Node.replace, Node.erase, replaceMembers_eq, eraseMembers_eq]
    refine congrArg _ (List.map_congr_left fun m hm => ?_)
    rw [ih m hm (occurrencesMembers_eq_zero h m hm)]

theorem sorted_replaceMembers {members : List (Bytes × Node)} (h : Sorted (eraseMembers members)) :
    Sorted (replaceMembers address entries members) := by
  unfold Sorted at h ⊢
  rw [eraseMembers_eq, List.pairwise_map] at h
  rw [replaceMembers_eq, List.pairwise_map]
  exact h

theorem Node.wellFormed_replace (hentries : ∀ e ∈ entries, WellFormed e) (v : Node) :
    WellFormed v.erase → WellFormed (v.replace address entries) := by
  induction v using Node.induction with
  | null => intro _; rw [Node.replace]; trivial
  | boolean flag => intro _; rw [Node.replace]; trivial
  | unsigned number => intro _; rw [Node.replace]; trivial
  | string text => intro _; rw [Node.replace]; trivial
  | array place items ih =>
    intro h
    rw [Node.erase, eraseItems_eq, wellFormed_array] at h
    rw [Node.replace, wellFormed_array]
    split
    · exact hentries
    · rw [replaceItems_eq]
      intro e he
      obtain ⟨v, hv, rfl⟩ := List.mem_map.mp he
      exact ih v hv (h _ (List.mem_map_of_mem hv))
  | object members ih =>
    intro h
    rw [Node.erase, wellFormed_object] at h
    rw [Node.replace, wellFormed_object]
    refine ⟨sorted_replaceMembers h.1, fun e he => ?_⟩
    rw [replaceMembers_eq] at he
    obtain ⟨m, hm, rfl⟩ := List.mem_map.mp he
    refine ih m hm (h.2 (m.1, m.2.erase) ?_)
    rw [eraseMembers_eq]
    exact List.mem_map_of_mem hm

end

/-- `CanonicalObjectView`, with addresses. -/
structure NodeView where
  fields : List (Bytes × Node)
  sorted : Sorted (eraseMembers fields)
  wellFormed : ∀ m ∈ fields, WellFormed m.2.erase

/-- The object that a view stands for. -/
def NodeView.object (view : NodeView) : Value :=
  .object (eraseMembers view.fields)

theorem NodeView.wellFormed_object (view : NodeView) : WellFormed view.object := by
  refine Json.wellFormed_object.mpr ⟨view.sorted, fun e he => ?_⟩
  rw [eraseMembers_eq] at he
  obtain ⟨m, hm, rfl⟩ := List.mem_map.mp he
  exact view.wellFormed m hm

/-- The view in which an array stands for the array of the entries' objects. -/
def NodeView.replace (view : NodeView) (address : Nat) (entries : List NodeView) :
    CanonicalObjectView where
  fields := replaceMembers address (entries.map NodeView.object) view.fields
  sorted := sorted_replaceMembers view.sorted
  wellFormed := by
    intro e he
    rw [replaceMembers_eq] at he
    obtain ⟨m, hm, rfl⟩ := List.mem_map.mp he
    refine Node.wellFormed_replace (fun e he => ?_) m.2 (view.wellFormed m hm)
    obtain ⟨entry, -, rfl⟩ := List.mem_map.mp he
    exact entry.wellFormed_object

/-! ## The walk -/

namespace ArrayView

/-- The counters of `CanonicalBudget` and `replacement_seen_`. -/
structure State where
  budget : Budget
  seen : Bool

variable (limits : ParseLimits)

/-- A step that only counts. -/
def counting (x : Budget → Result Budget) (s : State) : Result State := do
  let b ← x s.budget
  pure ⟨b, s.seen⟩

/-- `child`. -/
def child (value : Nat → State → Result State) (depth : Nat) (s : State) : Result State :=
  if depth ≥ limits.maxDepth then .error "JSON exceeds depth budget" else value (depth + 1) s

/-- `member`. -/
def member (key : Bytes) (value : Nat → State → Result State) (depth : Nat) (first : Bool)
    (s : State) : Result (Nat × State) := do
  let s ← counting (Budget.separator limits first) s
  let s ← counting (Budget.string limits key) s
  let s ← counting (Budget.spend limits 1) s
  let after ← child limits value depth s
  pure (after.budget.bytes - s.budget.bytes, after)

section

variable (replaced : Nat) (onReplaced : Nat → State → Result State)

mutual

/-- `value`; `onReplaced` is what happens at the replaced array, behind its brackets. -/
def value : Node → Nat → State → Result State
  | .null, depth, s => do
    let s ← counting (Budget.countValue limits depth) s
    counting (Budget.spend limits 4) s
  | .boolean flag, depth, s => do
    let s ← counting (Budget.countValue limits depth) s
    counting (Budget.spend limits (if flag then 4 else 5)) s
  | .unsigned number, depth, s => do
    let s ← counting (Budget.countValue limits depth) s
    counting (Budget.spend limits (Budget.digits number.toNat)) s
  | .string text, depth, s => do
    let s ← counting (Budget.countValue limits depth) s
    counting (Budget.string limits text) s
  | .array address items, depth, s => do
    let s ← counting (Budget.countValue limits depth) s
    let s ← counting (Budget.spend limits 2) s
    if address = replaced then onReplaced depth s else valueItems items depth true s
  | .object members, depth, s => do
    let s ← counting (Budget.countValue limits depth) s
    let s ← counting (Budget.spend limits 2) s
    valueMembers members depth true s

def valueItems : List Node → Nat → Bool → State → Result State
  | [], _, _, s => .ok s
  | entry :: rest, depth, first, s => do
    let s ← counting (Budget.separator limits first) s
    let s ← child limits (fun d s => value entry d s) depth s
    valueItems rest depth false s

def valueMembers : List (Bytes × Node) → Nat → Bool → State → Result State
  | [], _, _, s => .ok s
  | (key, entry) :: rest, depth, first, s => do
    let (_, s) ← member limits key (fun d s => value entry d s) depth first s
    valueMembers rest depth false s

end

end

/-- The message at an array that is met again, or outside the selected member. -/
def elsewhere : String := "JSON array view has another occurrence or owner"

/-- The loop over `replacement_entries_`. In there `replacement_seen_` is set, so the array is
refused wherever it is met. -/
def entryLoop (replaced depth : Nat) : List NodeView → Bool → State → Result State
  | [], _, s => .ok s
  | view :: rest, first, s => do
    let s ← counting (Budget.separator limits first) s
    if depth ≥ limits.maxDepth then .error "JSON exceeds depth budget"
    else do
      let s ← counting (Budget.countValue limits (depth + 1)) s
      let s ← counting (Budget.spend limits 2) s
      let s ← valueMembers limits replaced (fun _ _ => .error elsewhere) view.fields (depth + 1)
        true s
      entryLoop replaced depth rest false s

/-- What `value` does at the replaced array. -/
def onReplaced (replaced : Nat) (entries : List NodeView) (inSelected : Bool) (depth : Nat)
    (s : State) : Result State :=
  if !inSelected || s.seen then .error elsewhere
  else entryLoop limits replaced depth entries true { s with seen := true }

/-- The loop of `object_member`. -/
def selectMembers (replaced : Nat) (entries : List NodeView) (selected : Bytes) :
    List (Bytes × Node) → Bool → Option Nat → State → Result (Option Nat × State)
  | [], _, found, s => .ok (found, s)
  | (key, entry) :: rest, first, found, s => do
    let inSelected := key == selected
    let (encoded, s) ← member limits key
      (value limits replaced (onReplaced limits replaced entries inSelected) entry) 0 first s
    selectMembers replaced entries selected rest false (if inSelected then some encoded else found)
      s

/-- `object_member` of a `CanonicalBudget` with an array view. -/
def objectMember (replaced : Nat) (entries : List NodeView) (fields : List (Bytes × Node))
    (selected : Bytes) : Result Nat := do
  let s ← counting (Budget.countValue limits 0) ⟨{}, false⟩
  let s ← counting (Budget.spend limits 2) s
  let (found, s) ← selectMembers limits replaced entries selected fields true none s
  match found with
  | none => .error "JSON selected object member is absent"
  | some encoded =>
    if s.seen then .ok encoded else .error "JSON array view is outside its selected member"

end ArrayView

/-- `require_canonical_object_array_view_member_parse_limits`. -/
def requireCanonicalObjectArrayViewMemberParseLimits (view : NodeView) (limits : ParseLimits)
    (selected : Bytes) (array : Node) (entries : List NodeView) : Result Nat :=
  match array with
  | .array address items =>
    if items.length ≠ entries.length then
      .error "JSON array view count differs from its original array"
    else ArrayView.objectMember limits address entries view.fields selected
  | _ => .error "JSON value is not an array"

/-! ## The walk with the entries in place -/

namespace ArrayView

variable {limits : ParseLimits} {w w' : State → Result State}

/-- `replacement_seen_` after a part in which the array is met `n` times. -/
def seenAfter (seen : Bool) (n : Nat) : Bool :=
  seen || decide (0 < n)

/-- A part may be walked: the array is not met in it, or it is met for the first time and `P` holds.
-/
def Admits (P : Prop) (seen : Bool) (n : Nat) : Prop :=
  n = 0 ∨ n = 1 ∧ seen = false ∧ P

theorem seenAfter_zero (seen : Bool) : seenAfter seen 0 = seen := by
  cases seen <;> rfl

theorem seenAfter_add (seen : Bool) (n m : Nat) :
    seenAfter (seenAfter seen n) m = seenAfter seen (n + m) := by
  rw [Bool.eq_iff_iff]
  simp only [seenAfter, Bool.or_eq_true, decide_eq_true_eq, or_assoc]
  exact or_congr_right (by omega)

theorem admits_add {P : Prop} {seen : Bool} {m : Nat} :
    Admits P seen (n + m) ↔ Admits P seen n ∧ Admits P (seenAfter seen n) m := by
  unfold Admits
  constructor
  · rintro (h | ⟨h, hseen, hp⟩)
    · exact ⟨.inl (by omega), .inl (by omega)⟩
    · rcases Nat.eq_zero_or_pos n with rfl | hn
      · exact ⟨.inl rfl, .inr ⟨by omega, by rw [seenAfter_zero, hseen], hp⟩⟩
      · exact ⟨.inr ⟨by omega, hseen, hp⟩, .inl (by omega)⟩
  · rintro ⟨rfl | ⟨rfl, hseen, hp⟩, rfl | ⟨rfl, hseen', hp'⟩⟩
    · exact .inl rfl
    · exact .inr ⟨rfl, by rwa [seenAfter_zero] at hseen', hp'⟩
    · exact .inr ⟨rfl, hseen, hp⟩
    · rw [seenAfter, hseen] at hseen'
      cases hseen'

/-- A walk does what another walk over the counters does, and leaves `replacement_seen_` as told. -/
def Follows (w : State → Result State) (x : Budget → Result Budget) (seen after : Bool) : Prop :=
  ∀ b, w ⟨b, seen⟩ = x b >>= fun b => .ok ⟨b, after⟩

theorem follows_counting (x : Budget → Result Budget) (seen : Bool) :
    Follows (counting x) x seen seen :=
  fun _ => rfl

theorem Follows.bind {x x' : Budget → Result Budget} {a b c : Bool} (h : Follows w x a b)
    (h' : Follows w' x' b c) : Follows (fun s => w s >>= w') (fun s => x s >>= x') a c := by
  intro budget
  dsimp only
  rw [h budget]
  cases x budget with
  | error e => rfl
  | ok next => exact h' next

theorem Follows.child {w : Nat → State → Result State} {x : Nat → Budget → Result Budget} {d : Nat}
    {a b : Bool} (h : Follows (w (d + 1)) (x (d + 1)) a b) :
    Follows (child limits w d) (Budget.child limits x d) a b := by
  intro budget
  unfold ArrayView.child Budget.child
  split
  · rfl
  · exact h budget

theorem Follows.member {w : Nat → State → Result State} {x : Nat → Budget → Result Budget} {d : Nat}
    {a b : Bool} (h : Follows (w (d + 1)) (x (d + 1)) a b) (key : Bytes) (first : Bool)
    (budget : Budget) :
    ArrayView.member limits key w d first ⟨budget, a⟩ =
      Budget.member limits key x d first budget >>= fun r => .ok (r.1, ⟨r.2, b⟩) := by
  have hchild := @Follows.child limits w x d a b h
  simp only [ArrayView.member, Budget.member, counting, bind_assoc, pure_bind]
  refine congrArg _ (funext fun b1 => congrArg _ (funext fun b2 =>
    congrArg _ (funext fun b3 => ?_)))
  rw [hchild b3, bind_assoc]
  rfl

section Walk

variable {replaced : Nat} {onReplaced : Nat → State → Result State} {entries : List Value}

/-- At the array the walk is the loop over the entries. -/
def Replaces (limits : ParseLimits) (entries : List Value)
    (onReplaced : Nat → State → Result State) : Prop :=
  ∀ d, Follows (onReplaced d) (Budget.items limits entries d true) false true

/-- The walk over a value follows the walk over the value with the entries in place. -/
def Tracks (limits : ParseLimits) (replaced : Nat) (onReplaced : Nat → State → Result State)
    (entries : List Value) (v : Node) : Prop :=
  ∀ d seen, Admits (Replaces limits entries onReplaced) seen (v.occurrences replaced) →
    Follows (value limits replaced onReplaced v d) (Budget.value limits (v.replace replaced entries)
      d) seen (seenAfter seen (v.occurrences replaced))

theorem follows_items {d : Nat} : ∀ {vs : List Node},
    (∀ v ∈ vs, Tracks limits replaced onReplaced entries v) → ∀ (first seen : Bool),
    Admits (Replaces limits entries onReplaced) seen (occurrencesItems replaced vs) →
    Follows (valueItems limits replaced onReplaced vs d first)
      (Budget.items limits (replaceItems replaced entries vs) d first)
      seen (seenAfter seen (occurrencesItems replaced vs))
  | [], _, first, seen, _ => by
    intro b
    rw [valueItems, replaceItems, Budget.items, occurrencesItems, seenAfter_zero]
    rfl
  | v :: rest, h, first, seen, hadmits => by
    rw [occurrencesItems, admits_add] at hadmits
    have hv := h v List.mem_cons_self (d + 1) seen hadmits.1
    have hrest := @follows_items d rest (fun w hw => h w (List.mem_cons_of_mem v hw)) false _
      hadmits.2
    rw [seenAfter_add] at hrest
    have hwalk := (follows_counting (Budget.separator limits first) seen).bind
      ((@Follows.child limits (value limits replaced onReplaced v)
        (Budget.value limits (v.replace replaced entries)) d _ _ hv).bind hrest)
    intro b
    rw [occurrencesItems, valueItems, replaceItems, Budget.items]
    exact hwalk b

theorem follows_members {d : Nat} : ∀ {ms : List (Bytes × Node)},
    (∀ m ∈ ms, Tracks limits replaced onReplaced entries m.2) → ∀ (first seen : Bool),
    Admits (Replaces limits entries onReplaced) seen (occurrencesMembers replaced ms) →
    Follows (valueMembers limits replaced onReplaced ms d first)
      (Budget.members limits (replaceMembers replaced entries ms) d first)
      seen (seenAfter seen (occurrencesMembers replaced ms))
  | [], _, first, seen, _ => by
    intro b
    rw [valueMembers, replaceMembers, Budget.members, occurrencesMembers, seenAfter_zero]
    rfl
  | (key, v) :: rest, h, first, seen, hadmits => by
    rw [occurrencesMembers, admits_add] at hadmits
    have hv := h (key, v) List.mem_cons_self (d + 1) seen hadmits.1
    have hrest := @follows_members d rest (fun m hm => h m (List.mem_cons_of_mem _ hm)) false _
      hadmits.2
    rw [seenAfter_add] at hrest
    have hmember := @Follows.member limits (value limits replaced onReplaced v)
      (Budget.value limits (v.replace replaced entries)) d _ _ hv key first
    intro b
    rw [occurrencesMembers, valueMembers, replaceMembers, Budget.members, hmember b]
    simp only [bind_assoc]
    refine congrArg _ (funext fun r => ?_)
    exact hrest r.2

theorem tracks_scalar {v : Node} {step : Budget → Result Budget}
    (hvalue : ∀ d s, value limits replaced onReplaced v d s =
      counting (Budget.countValue limits d) s >>= counting step)
    (hreplace : ∀ d b, Budget.value limits (v.replace replaced entries) d b =
      Budget.countValue limits d b >>= step)
    (hnone : v.occurrences replaced = 0) : Tracks limits replaced onReplaced entries v := by
  intro d seen _ b
  rw [hvalue, hreplace, hnone, seenAfter_zero]
  exact (follows_counting _ seen).bind (follows_counting step seen) b

/-- The walk over a value, by induction on the value. -/
theorem tracks (v : Node) : Tracks limits replaced onReplaced entries v := by
  induction v using Node.induction with
  | null =>
    exact tracks_scalar (fun d s => by rw [value]) (fun d b => by rw [Node.replace, Budget.value])
      (by rw [Node.occurrences])
  | boolean flag =>
    exact tracks_scalar (fun d s => by rw [value]) (fun d b => by rw [Node.replace, Budget.value])
      (by rw [Node.occurrences])
  | unsigned number =>
    exact tracks_scalar (fun d s => by rw [value]) (fun d b => by rw [Node.replace, Budget.value])
      (by rw [Node.occurrences])
  | string text =>
    exact tracks_scalar (fun d s => by rw [value]) (fun d b => by rw [Node.replace, Budget.value])
      (by rw [Node.occurrences])
  | array address items ih =>
    intro d seen hadmits b
    rw [value, Node.replace, Budget.value, Node.occurrences]
    rw [Node.occurrences] at hadmits
    have hstart (w : State → Result State) (x : Budget → Result Budget) (after : Bool)
        (hw : Follows w x seen after) := (follows_counting (Budget.countValue limits d) seen).bind
      ((follows_counting (Budget.spend limits 2) seen).bind hw)
    split
    · next hplace =>
      rw [if_pos hplace] at hadmits
      rcases hadmits with h | ⟨-, rfl, hreplaces⟩
      · cases h
      · exact hstart _ _ _ (hreplaces d) b
    · next hplace =>
      rw [if_neg hplace] at hadmits
      exact hstart _ _ _ (follows_items ih true seen hadmits) b
  | object members ih =>
    intro d seen hadmits b
    rw [Node.occurrences] at hadmits
    have hwalk := (follows_counting (Budget.countValue limits d) seen).bind
      ((follows_counting (Budget.spend limits 2) seen).bind
        (follows_members (d := d) ih true seen hadmits))
    rw [value, Node.replace, Budget.value, Node.occurrences]
    exact hwalk b

/-! ## What a finished walk has met -/

/-- A walk that ends has met the array `n` times, and was allowed to. -/
def Meets (P : Prop) (w : State → Result State) (n : Nat) : Prop :=
  ∀ s s', w s = .ok s' → Admits P s.seen n ∧ s'.seen = seenAfter s.seen n

theorem meets_counting {P : Prop} (x : Budget → Result Budget) : Meets P (counting x) 0 := by
  intro s s' h
  simp only [counting, bind_eq_ok] at h
  obtain ⟨b, -, h⟩ := h
  cases h
  exact ⟨.inl rfl, (seenAfter_zero s.seen).symm⟩

theorem meets_ok {P : Prop} : Meets P Except.ok 0 := by
  intro s s' h
  cases h
  exact ⟨.inl rfl, (seenAfter_zero s.seen).symm⟩

theorem Meets.bind {P : Prop} {m : Nat} (h : Meets P w n) (h' : Meets P w' m) :
    Meets P (fun s => w s >>= w') (n + m) := by
  intro s s' hs
  simp only [bind_eq_ok] at hs
  obtain ⟨next, hnext, hs⟩ := hs
  obtain ⟨hadmits, hseen⟩ := h s next hnext
  obtain ⟨hadmits', hseen'⟩ := h' next s' hs
  rw [hseen] at hadmits' hseen'
  exact ⟨admits_add.mpr ⟨hadmits, hadmits'⟩, hseen'.trans (seenAfter_add _ _ _)⟩

theorem Meets.child {P : Prop} {w : Nat → State → Result State} {d n : Nat}
    (h : Meets P (w (d + 1)) n) : Meets P (child limits w d) n := by
  intro s s' hs
  unfold ArrayView.child at hs
  split at hs
  · cases hs
  · exact h s s' hs

theorem Meets.member {P : Prop} {w : Nat → State → Result State} {d n : Nat}
    (h : Meets P (w (d + 1)) n) (key : Bytes) (first : Bool) :
    Meets P (fun s => member limits key w d first s >>= fun r => pure r.2) n := by
  have hwalk := (meets_counting (Budget.separator limits first)).bind
    ((meets_counting (Budget.string limits key)).bind
      ((meets_counting (Budget.spend limits 1)).bind (@Meets.child limits P w d n h)))
  simp only [Nat.zero_add] at hwalk
  intro s s' hs
  refine hwalk s s' ?_
  simp only [ArrayView.member, bind_assoc, pure_bind, bind_pure] at hs
  exact hs

variable {P : Prop}

theorem meets_items {d : Nat} : ∀ {vs : List Node},
    (∀ v ∈ vs, ∀ d, Meets P (value limits replaced onReplaced v d) (v.occurrences replaced)) →
    ∀ first, Meets P (valueItems limits replaced onReplaced vs d first) (occurrencesItems replaced
      vs)
  | [], _, first => by
    intro s s' hs
    rw [valueItems] at hs
    rw [occurrencesItems]
    exact meets_ok s s' hs
  | v :: rest, h, first => by
    have hv := h v List.mem_cons_self (d + 1)
    have hrest := @meets_items d rest (fun w hw => h w (List.mem_cons_of_mem v hw)) false
    have hwalk := (meets_counting (Budget.separator limits first)).bind
      ((@Meets.child limits P (value limits replaced onReplaced v) d _ hv).bind hrest)
    rw [Nat.zero_add] at hwalk
    intro s s' hs
    rw [valueItems] at hs
    rw [occurrencesItems]
    exact hwalk s s' hs

theorem meets_members {d : Nat} : ∀ {ms : List (Bytes × Node)},
    (∀ m ∈ ms, ∀ d, Meets P (value limits replaced onReplaced m.2 d) (m.2.occurrences replaced)) →
    ∀ first,
      Meets P (valueMembers limits replaced onReplaced ms d first) (occurrencesMembers replaced ms)
  | [], _, first => by
    intro s s' hs
    rw [valueMembers] at hs
    rw [occurrencesMembers]
    exact meets_ok s s' hs
  | (key, v) :: rest, h, first => by
    have hv := h (key, v) List.mem_cons_self (d + 1)
    have hrest := @meets_members d rest (fun m hm => h m (List.mem_cons_of_mem _ hm)) false
    have hwalk := (@Meets.member limits P (value limits replaced onReplaced v) d _ hv key
      first).bind hrest
    intro s s' hs
    rw [valueMembers] at hs
    rw [occurrencesMembers]
    refine hwalk s s' ?_
    simp only [bind_assoc, pure_bind]
    exact hs

theorem meets_scalar {v : Node} {d : Nat} {step : Budget → Result Budget}
    (hvalue : ∀ s, value limits replaced onReplaced v d s =
      counting (Budget.countValue limits d) s >>= counting step)
    (hnone : v.occurrences replaced = 0) :
    Meets P (value limits replaced onReplaced v d) (v.occurrences replaced) := by
  intro s s' hs
  rw [hvalue] at hs
  rw [hnone]
  exact (meets_counting _).bind (meets_counting step) s s' hs

theorem meets (hon : ∀ d, Meets P (onReplaced d) 1) (v : Node) :
    ∀ d, Meets P (value limits replaced onReplaced v d) (v.occurrences replaced) := by
  induction v using Node.induction with
  | null => exact fun d => meets_scalar (fun s => by rw [value]) (by rw [Node.occurrences])
  | boolean flag => exact fun d => meets_scalar (fun s => by rw [value]) (by rw [Node.occurrences])
  | unsigned number =>
    exact fun d => meets_scalar (fun s => by rw [value]) (by rw [Node.occurrences])
  | string text => exact fun d => meets_scalar (fun s => by rw [value]) (by rw [Node.occurrences])
  | array address items ih =>
    intro d s s' hs
    have hstart (w : State → Result State) (n : Nat) (hw : Meets P w n) :=
      (meets_counting (Budget.countValue limits d)).bind
        ((meets_counting (Budget.spend limits 2)).bind hw)
    simp only [Nat.zero_add] at hstart
    rw [value] at hs
    rw [Node.occurrences]
    split at hs
    · next hplace =>
      rw [if_pos hplace]
      exact hstart _ _ (hon d) s s' hs
    · next hplace =>
      rw [if_neg hplace]
      exact hstart _ _ (meets_items ih true) s s' hs
  | object members ih =>
    intro d s s' hs
    have hwalk := (meets_counting (Budget.countValue limits d)).bind
      ((meets_counting (Budget.spend limits 2)).bind (@meets_members _ _ _ P d members ih true))
    simp only [Nat.zero_add] at hwalk
    rw [value] at hs
    rw [Node.occurrences]
    exact hwalk s s' hs

end Walk

/-! ## The entries -/

section Entries

variable {replaced : Nat} {entries : List NodeView}

/-- The array is not met in the entries. -/
def Clear (replaced : Nat) (entries : List NodeView) : Prop :=
  ∀ e ∈ entries, occurrencesMembers replaced e.fields = 0

/-- One entry, behind the check of its depth. -/
def entryWalk (limits : ParseLimits) (replaced : Nat) (view : NodeView) (depth : Nat) (s : State) :
    Result State :=
  counting (Budget.countValue limits depth) s >>= fun s =>
    counting (Budget.spend limits 2) s >>=
      valueMembers limits replaced (fun _ _ => .error elsewhere) view.fields depth true

theorem entryLoop_cons (view : NodeView) (rest : List NodeView) (d : Nat) (first : Bool)
    (s : State) : entryLoop limits replaced d (view :: rest) first s =
      counting (Budget.separator limits first) s >>= fun s =>
        child limits (entryWalk limits replaced view) d s >>= entryLoop limits replaced d rest
          false := by
  rw [entryLoop]
  refine congrArg _ (funext fun next => ?_)
  unfold child entryWalk
  split
  · rfl
  · simp only [bind_assoc]

theorem entryLoop_follows {d : Nat} : ∀ {entries : List NodeView}, Clear replaced entries →
    ∀ first, Follows (entryLoop limits replaced d entries first)
      (Budget.items limits (entries.map NodeView.object) d first) true true
  | [], _, first => by
    intro b
    rw [entryLoop, List.map_nil, Budget.items]
    rfl
  | view :: rest, h, first => by
    have hrest := @entryLoop_follows d rest (fun e he => h e (List.mem_cons_of_mem view he)) false
    have hclear := h view List.mem_cons_self
    have hobject : replaceMembers replaced [] view.fields = eraseMembers view.fields := by
      rw [replaceMembers_eq, eraseMembers_eq]
      refine List.map_congr_left fun m hm => ?_
      rw [Node.replace_eq_erase m.2 (occurrencesMembers_eq_zero hclear m hm)]
    have hmembers := @follows_members limits replaced (fun _ _ => .error elsewhere) [] (d + 1)
      view.fields (fun m _ => tracks m.2) true true (.inl hclear)
    rw [hobject, hclear, seenAfter_zero] at hmembers
    have hentry : Follows (entryWalk limits replaced view (d + 1))
        (Budget.value limits view.object (d + 1)) true true := by
      intro b
      rw [NodeView.object, Budget.value]
      exact (follows_counting _ true).bind ((follows_counting _ true).bind hmembers) b
    have hwalk := (follows_counting (Budget.separator limits first) true).bind
      ((@Follows.child limits (entryWalk limits replaced view) (Budget.value limits view.object) d
        true true hentry).bind hrest)
    intro b
    rw [entryLoop_cons, List.map_cons, Budget.items]
    exact hwalk b

/-- Nothing passes the array inside the entries. -/
theorem entryLoop_meets {d : Nat} : ∀ {entries : List NodeView} (first : Bool) {s s' : State},
    entryLoop limits replaced d entries first s = .ok s' →
      Clear replaced entries ∧ s'.seen = s.seen
  | [], first, s, s', h => by
    rw [entryLoop] at h
    cases h
    exact ⟨List.forall_mem_nil _, rfl⟩
  | view :: rest, first, s, s', h => by
    have hentry : Meets False (entryWalk limits replaced view (d + 1))
        (occurrencesMembers replaced view.fields) := by
      have hrefused : ∀ d, Meets False ((fun _ _ => .error elsewhere : Nat → State → Result State)
        d) 1 := fun d s s' h => nomatch h
      have hmembers := @meets_members limits replaced (fun _ _ => .error elsewhere) False (d + 1)
        view.fields (fun m _ => meets hrefused m.2) true
      have hwalk := (meets_counting (Budget.countValue limits (d + 1))).bind
        ((meets_counting (Budget.spend limits 2)).bind hmembers)
      simp only [Nat.zero_add] at hwalk
      exact hwalk
    have hstart := (meets_counting (Budget.separator limits first)).bind
      (@Meets.child limits False (entryWalk limits replaced view) d _ hentry)
    rw [entryLoop_cons, ← bind_assoc, bind_eq_ok] at h
    obtain ⟨next, hnext, h⟩ := h
    obtain ⟨hadmits, hseen⟩ := hstart s next hnext
    obtain ⟨hrest, hseen'⟩ := entryLoop_meets false h
    rw [Nat.zero_add] at hadmits hseen
    rcases hadmits with hzero | ⟨-, -, hfalse⟩
    · refine ⟨List.forall_mem_cons.mpr ⟨hzero, hrest⟩, ?_⟩
      rw [hseen', hseen, hzero, seenAfter_zero]
    · exact hfalse.elim

theorem onReplaced_replaces (h : Clear replaced entries) :
    Replaces limits (entries.map NodeView.object) (onReplaced limits replaced entries true) := by
  intro d b
  exact entryLoop_follows h true b

theorem onReplaced_meets {inSelected : Bool} (d : Nat) :
    Meets (inSelected = true ∧ Clear replaced entries)
      (onReplaced limits replaced entries inSelected d) 1 := by
  intro s s' h
  unfold onReplaced at h
  split at h
  · cases h
  · next hallowed =>
    simp only [Bool.or_eq_true, Bool.not_eq_true', not_or, Bool.not_eq_false, Bool.not_eq_true]
      at hallowed
    obtain ⟨hclear, hseen⟩ := entryLoop_meets true h
    refine ⟨.inr ⟨rfl, hallowed.2, hallowed.1, hclear⟩, ?_⟩
    rw [hseen, hallowed.2]
    rfl

/-! ## The fields of the view -/

variable {selected : Bytes}

/-- The array is met in the selected member only. -/
def Inside (replaced : Nat) (selected : Bytes) (fields : List (Bytes × Node)) : Prop :=
  ∀ m ∈ fields, m.1 ≠ selected → m.2.occurrences replaced = 0

theorem selectMembers_follows : ∀ {fields : List (Bytes × Node)}, Inside replaced selected fields →
    ∀ (first seen : Bool) (found : Option Nat),
    Admits (Clear replaced entries) seen (occurrencesMembers replaced fields) → ∀ b,
    selectMembers limits replaced entries selected fields first found ⟨b, seen⟩ =
      Budget.selectMembers limits (some selected)
        (replaceMembers replaced (entries.map NodeView.object) fields) first found b >>= fun r =>
          .ok (r.1, ⟨r.2, seenAfter seen (occurrencesMembers replaced fields)⟩)
  | [], _, first, seen, found, _, b => by
    rw [selectMembers, replaceMembers, Budget.selectMembers, occurrencesMembers, seenAfter_zero]
    rfl
  | (key, v) :: rest, hinside, first, seen, found, hadmits, b => by
    rw [occurrencesMembers, admits_add] at hadmits
    have hrest := fun found b => selectMembers_follows
      (fun m hm => hinside m (List.mem_cons_of_mem _ hm)) false _ found hadmits.2 b
    have hfield : Admits (Replaces limits (entries.map NodeView.object)
        (onReplaced limits replaced entries (key == selected))) seen (v.occurrences replaced) := by
      rcases hadmits.1 with hzero | ⟨hone, hseen, hclear⟩
      · exact .inl hzero
      · have hkey : key = selected := by
          by_contra hne
          rw [hinside (key, v) List.mem_cons_self hne] at hone
          cases hone
        refine .inr ⟨hone, hseen, ?_⟩
        rw [beq_iff_eq.mpr hkey]
        exact onReplaced_replaces hclear
    have hmember := @Follows.member limits
      (value limits replaced (onReplaced limits replaced entries (key == selected)) v)
      (Budget.value limits (v.replace replaced (entries.map NodeView.object))) 0 _ _
      (tracks v (0 + 1) seen hfield) key first b
    rw [selectMembers, replaceMembers, Budget.selectMembers, occurrencesMembers]
    dsimp only
    rw [hmember]
    simp only [bind_assoc]
    refine congrArg _ (funext fun r => ?_)
    have hsame : (if (key == selected) = true then some r.1 else found) =
        if some selected = some key then some r.1 else found := by
      by_cases hkey : key = selected
      · rw [hkey, beq_self_eq_true, if_pos rfl, if_pos rfl]
      · rw [if_neg (beq_iff_eq.not.mpr hkey), if_neg fun h => hkey (Option.some.inj h).symm]
    show selectMembers limits replaced entries selected rest false _ ⟨r.2, _⟩ = _
    rw [hrest, seenAfter_add, hsame]

theorem selectMembers_meets : ∀ {fields : List (Bytes × Node)} (first : Bool) {found : Option Nat}
    {s : State} {r : Option Nat × State},
    selectMembers limits replaced entries selected fields first found s = .ok r →
      Inside replaced selected fields ∧
        Admits (Clear replaced entries) s.seen (occurrencesMembers replaced fields) ∧
        r.2.seen = seenAfter s.seen (occurrencesMembers replaced fields)
  | [], first, found, s, r, h => by
    rw [selectMembers] at h
    cases h
    exact ⟨List.forall_mem_nil _, .inl rfl, (seenAfter_zero s.seen).symm⟩
  | (key, v) :: rest, first, found, s, r, h => by
    rw [selectMembers] at h
    dsimp only at h
    rw [bind_eq_ok] at h
    obtain ⟨⟨encoded, next⟩, hnext, h⟩ := h
    have hmeets := @Meets.member limits _ _ 0 _ (meets onReplaced_meets v (0 + 1)) key first s next
      (bind_eq_ok.mpr ⟨_, hnext, rfl⟩)
    obtain ⟨hinside, hadmits, hseen⟩ := selectMembers_meets false h
    rw [hmeets.2] at hadmits hseen
    rw [occurrencesMembers]
    refine ⟨List.forall_mem_cons.mpr ⟨fun hne => ?_, hinside⟩, admits_add.mpr ⟨?_, hadmits⟩,
      hseen.trans (seenAfter_add _ _ _)⟩
    · rcases hmeets.1 with hzero | ⟨-, -, hkey, -⟩
      · exact hzero
      · exact absurd (beq_iff_eq.mp hkey) hne
    · rcases hmeets.1 with hzero | ⟨hone, hseen, -, hclear⟩
      · exact .inl hzero
      · exact .inr ⟨hone, hseen, hclear⟩

/-- What the caller promises: the array is met once, inside the selected member. -/
structure MetOnce (replaced : Nat) (selected : Bytes) (fields : List (Bytes × Node))
    (entries : List NodeView) : Prop where
  inside : Inside replaced selected fields
  once : occurrencesMembers replaced fields = 1
  clear : Clear replaced entries

theorem objectMember_follows (h : MetOnce replaced selected fields entries) :
    objectMember limits replaced entries fields selected =
      Budget.objectMember limits (replaceMembers replaced (entries.map NodeView.object) fields)
        (some selected) >>= fun r => .ok r.1 := by
  have hselect := fun b => @selectMembers_follows limits replaced entries selected fields h.inside
    true false none (.inr ⟨h.once, rfl, h.clear⟩) b
  rw [h.once] at hselect
  unfold objectMember Budget.objectMember
  simp only [counting, bind_assoc, pure_bind]
  refine congrArg _ (funext fun b1 => congrArg _ (funext fun b2 => ?_))
  rw [hselect b2, bind_assoc]
  refine congrArg _ (funext fun r => ?_)
  obtain ⟨found, b3⟩ := r
  cases found with
  | none => rfl
  | some encoded => rfl

theorem objectMember_meets (h : objectMember limits replaced entries fields selected = .ok n) :
    MetOnce replaced selected fields entries := by
  simp only [objectMember, counting, bind_assoc, pure_bind, bind_eq_ok] at h
  obtain ⟨b1, -, b2, -, ⟨found, s⟩, hselect, h⟩ := h
  obtain ⟨hinside, hadmits, hseen⟩ := selectMembers_meets true hselect
  cases found with
  | none => cases h
  | some encoded =>
    dsimp only at h hseen
    rw [hseen] at h
    rcases hadmits with hzero | ⟨hone, -, hclear⟩
    · rw [hzero] at h
      cases h
    · exact ⟨hinside, hone, hclear⟩

end Entries

end ArrayView

/-- With an array that is met once, inside the selected member, and as many entries as it has
elements the walk gives what the walk over the object with the entries' objects in its place gives,
the refusals and their messages included. In every other case it refuses. -/
theorem array_view_budget_exact (view : NodeView) (limits : ParseLimits) (selected : Bytes)
    (address : Nat) (items : List Node) (entries : List NodeView) :
    (ArrayView.MetOnce address selected view.fields entries → items.length = entries.length →
      requireCanonicalObjectArrayViewMemberParseLimits view limits selected (.array address items)
          entries =
        requireCanonicalObjectMemberParseLimits (view.replace address entries) limits selected) ∧
    (¬(ArrayView.MetOnce address selected view.fields entries ∧ items.length = entries.length) →
      ∃ message, requireCanonicalObjectArrayViewMemberParseLimits view limits selected
        (.array address items) entries = .error message) := by
  unfold requireCanonicalObjectArrayViewMemberParseLimits
  dsimp only
  constructor
  · intro hmet hcount
    rw [if_neg fun h => h hcount, ArrayView.objectMember_follows hmet]
    rfl
  · intro hrefused
    split
    · exact ⟨_, rfl⟩
    · next hcount =>
      cases hwalk : ArrayView.objectMember limits address entries view.fields selected with
      | error message => exact ⟨message, rfl⟩
      | ok n => exact absurd ⟨ArrayView.objectMember_meets hwalk, not_not.mp hcount⟩ hrefused

/-- Two arrays, of which the second stands inside the member `b`. -/
def sampleNodes : NodeView where
  fields := [(ascii "a", .array 1 [.null]), (ascii "b", .object [(ascii "list", .array 2 [.null])])]
  sorted := List.pairwise_pair.mpr (by decide)
  wellFormed := by
    simp [Node.erase, eraseItems, eraseMembers, WellFormed, WellFormedItems, WellFormedMembers,
      Sorted]

/-- One entry with one field. -/
def sampleEntry : NodeView where
  fields := [(ascii "x", .string (ascii "y"))]
  sorted := List.pairwise_singleton _ _
  wellFormed := by simp [Node.erase, WellFormed]

/-- The array is replaced in the member `b`; in the member `a` it does not occur. -/
theorem sampleNodes_exact :
    requireCanonicalObjectArrayViewMemberParseLimits sampleNodes {} (ascii "b") (.array 2 [.null])
        [sampleEntry] = .ok 20 ∧
      ∃ message, requireCanonicalObjectArrayViewMemberParseLimits sampleNodes {} (ascii "a")
        (.array 2 [.null]) [sampleEntry] = .error message := by
  have hmet : ArrayView.MetOnce 2 (ascii "b") sampleNodes.fields [sampleEntry] := by
    refine ⟨?_, by decide, ?_⟩
    · simp [ArrayView.Inside, sampleNodes, Node.occurrences, occurrencesItems]
    · simp [ArrayView.Clear, sampleEntry, occurrencesMembers, Node.occurrences]
  have houtside : ¬ArrayView.MetOnce 2 (ascii "a") sampleNodes.fields [sampleEntry] := by
    intro h
    have := h.inside _ (List.mem_cons_of_mem _ List.mem_cons_self) (by decide)
    revert this
    decide
  refine ⟨?_, (array_view_budget_exact _ _ _ _ _ _).2 fun h => houtside h.1⟩
  rw [(array_view_budget_exact sampleNodes {} (ascii "b") 2 [.null] [sampleEntry]).1 hmet rfl]
  exact toOption_eq_some.mp (by decide +kernel)

end Usk.Json
