import UniversalSetup.Base.ByteMap
import UniversalSetup.Base.Utf8

/-!
# JSON values

`usk::json::Value` holds one of six alternatives. Numbers are unsigned 64-bit integers only, and an
object is an ordered map, so its members are kept in the byte order of their keys.
Accessors throw on a value of another type; the model returns the text of the exception.
-/

namespace Usk.Json

inductive Value where
  | null
  | boolean (b : Bool)
  | unsigned (n : UInt64)
  | string (s : Bytes)
  | array (items : List Value)
  | object (members : List (Bytes × Value))

/-- An object is an ordered map. -/
abbrev Object := ByteMap Value

export ByteMap (Sorted mem_of_find find_of_mem eq_of_find_eq eq_ofList_of_members
  find_erase_of_ne mem_keys_erase)

/-- Induction over a value with hypotheses for the elements of its containers. -/
@[elab_as_elim]
theorem Value.induction {P : Value → Prop} (null : P .null) (boolean : ∀ b, P (.boolean b))
    (unsigned : ∀ n, P (.unsigned n)) (string : ∀ s, P (.string s))
    (array : ∀ items : List Value, (∀ v ∈ items, P v) → P (.array items))
    (object : ∀ members : List (Bytes × Value), (∀ m ∈ members, P m.2) → P (.object members))
    (v : Value) : P v :=
  @Value.rec P (fun items => ∀ v ∈ items, P v) (fun members => ∀ m ∈ members, P m.2)
    (fun m => P m.2) null boolean unsigned string array object (by simp)
    (fun _ _ hv hvs => List.forall_mem_cons.mpr ⟨hv, hvs⟩) (by simp)
    (fun _ _ hm hms => List.forall_mem_cons.mpr ⟨hm, hms⟩) (fun _ _ hv => hv) v

/-- The result of code that may throw `std::runtime_error`; the text is `what()`. -/
abbrev Result (α : Type) := Except String α

theorem bind_eq_ok {ε α β : Type} {x : Except ε α} {f : α → Except ε β} {b : β} :
    (x >>= f) = .ok b ↔ ∃ a, x = .ok a ∧ f a = .ok b := by
  cases x with
  | error e => simp [bind, Except.bind]
  | ok a => simp [bind, Except.bind]

/-- An outcome that is a success has a result. -/
theorem exists_of_isOk {ε α : Type} {x : Except ε α} (h : x.isOk = true) : ∃ a, x = .ok a := by
  cases x with
  | error e => cases h
  | ok a => exact ⟨a, rfl⟩

theorem toOption_eq_some {ε α : Type} {x : Except ε α} {a : α} :
    x.toOption = some a ↔ x = .ok a := by
  cases x <;> simp [Except.toOption]

theorem exists_of_any {ε α : Type} {x : Except ε α} {p : α → Bool} (h : x.toOption.any p = true) :
    ∃ a, x = .ok a ∧ p a = true := by
  cases x with
  | error e => cases h
  | ok a => exact ⟨a, rfl, h⟩

/-! ## Accessors -/

namespace Value

def isNull : Value → Bool
  | .null => true
  | _ => false

def asBoolean : Value → Result Bool
  | .boolean b => .ok b
  | _ => .error "JSON value is not a boolean"

def asUnsigned : Value → Result UInt64
  | .unsigned n => .ok n
  | _ => .error "JSON value is not an unsigned integer"

def asString : Value → Result Bytes
  | .string s => .ok s
  | _ => .error "JSON value is not a string"

def asArray : Value → Result (List Value)
  | .array items => .ok items
  | _ => .error "JSON value is not an array"

def asObject : Value → Result Object
  | .object members => .ok members
  | _ => .error "JSON value is not an object"

/-- `at`. The message of the source ends in the key. -/
def get (v : Value) (key : String) : Result Value :=
  match v with
  | .object members =>
    match ByteMap.find members (ascii key) with
    | some found => .ok found
    | none => .error ("required JSON member is missing: " ++ key)
  | _ => .error "JSON value is not an object"

/-- `contains`. -/
def contains (v : Value) (key : String) : Bool :=
  match v with
  | .object members => (ByteMap.find members (ascii key)).isSome
  | _ => false

/-- A string member, the access the record readers use most. -/
def getString (v : Value) (key : String) : Result Bytes := do
  (← v.get key).asString

end Value

/-! ## Equality -/

mutual

/-- `equal_values`. -/
def equalValues : Value → Value → Bool
  | .null, .null => true
  | .boolean a, .boolean b => a == b
  | .unsigned a, .unsigned b => a == b
  | .string a, .string b => a == b
  | .array a, .array b => equalItems a b
  | .object a, .object b => equalMembers a b
  | _, _ => false

/-- The loop over two arrays. -/
def equalItems : List Value → List Value → Bool
  | [], [] => true
  | a :: as, b :: bs => equalValues a b && equalItems as bs
  | _, _ => false

/-- The loop over two objects. -/
def equalMembers : List (Bytes × Value) → List (Bytes × Value) → Bool
  | [], [] => true
  | (j, a) :: as, (k, b) :: bs => j == k && equalValues a b && equalMembers as bs
  | _, _ => false

end

theorem equalItems_iff : ∀ {as : List Value},
    (∀ a ∈ as, ∀ b, equalValues a b = true ↔ a = b) →
    ∀ {bs : List Value}, equalItems as bs = true ↔ as = bs
  | [], _, bs => by cases bs <;> simp [equalItems]
  | a :: as, h, [] => by simp [equalItems]
  | a :: as, h, b :: bs => by
    rw [equalItems, Bool.and_eq_true, h a List.mem_cons_self b,
      equalItems_iff fun c hc => h c (List.mem_cons_of_mem a hc), List.cons.injEq]

theorem equalMembers_iff : ∀ {as : List (Bytes × Value)},
    (∀ a ∈ as, ∀ b, equalValues a.2 b = true ↔ a.2 = b) →
    ∀ {bs : List (Bytes × Value)}, equalMembers as bs = true ↔ as = bs
  | [], _, bs => by cases bs <;> simp [equalMembers]
  | a :: as, h, [] => by simp [equalMembers]
  | (j, a) :: as, h, (k, b) :: bs => by
    rw [equalMembers, Bool.and_eq_true, Bool.and_eq_true, beq_iff_eq,
      h (j, a) List.mem_cons_self b, equalMembers_iff fun c hc => h c (List.mem_cons_of_mem _ hc),
      List.cons.injEq, Prod.mk.injEq]

@[simp] theorem equalValues_iff {v w : Value} : equalValues v w = true ↔ v = w := by
  induction v using Value.induction generalizing w with
  | null => cases w <;> simp [equalValues]
  | boolean b => cases w <;> simp [equalValues]
  | unsigned n => cases w <;> simp [equalValues]
  | string s => cases w <;> simp [equalValues]
  | array items ih =>
    cases w with
    | array items' => rw [equalValues, equalItems_iff fun a ha b => ih a ha, Value.array.injEq]
    | _ => simp [equalValues]
  | object members ih =>
    cases w with
    | object members' =>
      rw [equalValues, equalMembers_iff fun a ha b => ih a ha, Value.object.injEq]
    | _ => simp [equalValues]

end Usk.Json
