import UniversalSetup.Base.Sha256
import UniversalSetup.Json.Text

/-!
# Reading documents of a fixed shape

The journal readers ask an object for an exact set of keys and for members of a given type, and
throw otherwise. `exactKeys` and `demandString` are those questions; the lemmas say what a passed
check tells about the value, and how large a value of a checked shape can be.
-/

namespace Usk.Json

variable {w v : Value} {d c : Nat} {message key : String} {u : Unit} {o : Object}
  {expected : List String} {ms : List (Bytes × Value)}

/-- `if (!holds) throw std::runtime_error(message);`. -/
def demand (holds : Bool) (message : String) : Result Unit :=
  if holds then .ok () else .error message

@[simp] theorem demand_eq_ok {holds : Bool} : demand holds message = .ok u ↔ holds = true := by
  unfold demand
  split <;> simp_all

/-- A string member with a property, or the message of the check it belongs to. -/
def demandString (v : Value) (key : String) (p : Bytes → Bool) (message : String) :
    Result Unit := do
  let s ← v.getString key
  demand (p s) message

/-- `exact_keys`: the keys of an object, compared as a set. -/
def exactKeys (v : Value) (expected : List String) (message : String) : Result Unit := do
  let o ← v.asObject
  demand ((ByteMap.keys o).all (expected.map ascii).contains &&
    (expected.map ascii).all (ByteMap.keys o).contains) message

/-- The text is one of these names. -/
def oneOf (names : List String) (text : Bytes) : Bool :=
  (names.map ascii).contains text

/-- `sha256_canonical`. -/
def sha256Canonical (v : Value) : Bytes :=
  sha256 (canonical v)

/-- A value as the source builds it: its objects are maps, so their members are in key order. -/
def Document : Type :=
  { v : Value // WellFormed v }

/-! ## Passed checks -/

theorem asString_eq_ok {s : Bytes} : v.asString = .ok s ↔ v = .string s := by
  cases v <;> simp [Value.asString]

theorem asUnsigned_eq_ok {n : UInt64} : v.asUnsigned = .ok n ↔ v = .unsigned n := by
  cases v <;> simp [Value.asUnsigned]

theorem asArray_eq_ok {vs : List Value} : v.asArray = .ok vs ↔ v = .array vs := by
  cases v <;> simp [Value.asArray]

theorem asObject_eq_ok : v.asObject = .ok o ↔ v = .object o := by
  cases v <;> simp [Value.asObject]

theorem get_object : (Value.object o).get key = .ok w ↔ o.find (ascii key) = some w := by
  rw [Value.get]
  split <;> simp_all

theorem get_eq_ok :
    v.get key = .ok w ↔ ∃ o, v = .object o ∧ ByteMap.find o (ascii key) = some w := by
  constructor
  · intro h
    cases v with
    | object o => exact ⟨o, rfl, get_object.mp h⟩
    | _ => cases h
  · rintro ⟨o, rfl, h⟩
    exact get_object.mpr h

theorem getString_eq_ok {s : Bytes} : v.getString key = .ok s ↔ v.get key = .ok (.string s) := by
  rw [Value.getString, bind_eq_ok]
  simp only [asString_eq_ok, exists_eq_right]

theorem demandString_eq_ok {p : Bytes → Bool} :
    demandString v key p message = .ok u ↔ ∃ s, v.get key = .ok (.string s) ∧ p s = true := by
  simp only [demandString, bind_eq_ok, getString_eq_ok, demand_eq_ok]

theorem exactKeys_eq_ok :
    exactKeys v expected message = .ok u ↔
      ∃ o, v = .object o ∧ ∀ k, k ∈ ByteMap.keys o ↔ k ∈ expected.map ascii := by
  simp only [exactKeys, bind_eq_ok, asObject_eq_ok, demand_eq_ok, Bool.and_eq_true,
    List.all_eq_true, List.contains_iff_mem]
  constructor
  · rintro ⟨o, rfl, h1, h2⟩
    exact ⟨o, rfl, fun k => ⟨h1 k, h2 k⟩⟩
  · rintro ⟨o, rfl, h⟩
    exact ⟨o, rfl, fun k => (h k).mp, fun k => (h k).mpr⟩

/-! ## Members -/

theorem length_of_exactKeys (h : exactKeys (.object o) expected message = .ok u)
    (ho : WellFormed (.object o)) : o.length ≤ expected.length := by
  obtain ⟨_, he, hkeys⟩ := exactKeys_eq_ok.mp h
  cases he
  have hnd := ByteMap.nodup_of_sorted (wellFormed_object.mp ho).1
  have hle := (hnd.subperm fun k hk => (hkeys k).mp hk).length_le
  simpa [ByteMap.keys] using hle

/-- A property of every expected member is a property of every member. -/
theorem forall_mem_of_exactKeys (h : exactKeys v expected message = .ok u) (hv : WellFormed v)
    {P : Value → Prop} (hP : ∀ key ∈ expected, ∃ w, v.get key = .ok w ∧ P w) :
    ∃ o, v = .object o ∧ o.length ≤ expected.length ∧ ∀ m ∈ o, P m.2 := by
  obtain ⟨o, rfl, hkeys⟩ := exactKeys_eq_ok.mp h
  refine ⟨o, rfl, length_of_exactKeys h hv, fun m hm => ?_⟩
  obtain ⟨key, hkey, he⟩ := List.mem_map.mp ((hkeys m.1).mp (List.mem_map_of_mem hm))
  obtain ⟨w, hw, hPw⟩ := hP key hkey
  have hnd := ByteMap.nodup_of_sorted (wellFormed_object.mp hv).1
  rw [get_object, he, find_of_mem hnd hm] at hw
  cases hw
  exact hPw

/-! ## Sizes -/

theorem countMembers_le {c : Nat} : ∀ {ms : List (Bytes × Value)}, (∀ m ∈ ms, count m.2 ≤ c) →
    countMembers ms ≤ ms.length * c
  | [], _ => by simp [countMembers]
  | (k, v) :: rest, h => by
    have hv : count v ≤ c := h (k, v) List.mem_cons_self
    have hrest := countMembers_le fun m hm => h m (List.mem_cons_of_mem _ hm)
    rw [countMembers, List.length_cons, Nat.add_mul]
    omega

theorem depthMembers_le {d : Nat} : ∀ {ms : List (Bytes × Value)}, (∀ m ∈ ms, depth m.2 ≤ d) →
    depthMembers ms ≤ d + 1
  | [], _ => by simp [depthMembers]
  | (k, v) :: rest, h => by
    have hv : depth v ≤ d := h (k, v) List.mem_cons_self
    have hrest := depthMembers_le fun m hm => h m (List.mem_cons_of_mem _ hm)
    rw [depthMembers]
    omega

theorem depthItems_le {d : Nat} : ∀ {vs : List Value}, (∀ v ∈ vs, depth v ≤ d) →
    depthItems vs ≤ d + 1
  | [], _ => Nat.zero_le _
  | v :: rest, h => by
    have hv := h v List.mem_cons_self
    have hrest := depthItems_le fun w hw => h w (List.mem_cons_of_mem v hw)
    rw [depthItems]
    omega

/-- A value of bounded nesting and with a bounded number of values. -/
def Within (d c : Nat) (v : Value) : Prop :=
  depth v ≤ d ∧ count v ≤ c

theorem Within.mono {d' c' : Nat} (h : Within d c v) (hd : d ≤ d') (hc : c ≤ c') : Within d' c' v :=
  ⟨h.1.trans hd, h.2.trans hc⟩

theorem within_string (s : Bytes) : Within 0 1 (.string s) :=
  ⟨Nat.le_refl 0, Nat.le_refl 1⟩

theorem within_unsigned (n : UInt64) : Within 0 1 (.unsigned n) :=
  ⟨Nat.le_refl 0, Nat.le_refl 1⟩

theorem within_object {n : Nat} (hn : o.length ≤ n) (h : ∀ m ∈ o, Within d c m.2) :
    Within (d + 1) (1 + n * c) (.object o) := by
  refine ⟨depthMembers_le fun m hm => (h m hm).1, ?_⟩
  have hc := countMembers_le fun m hm => (h m hm).2
  have hmul := Nat.mul_le_mul_right c hn
  rw [count]
  omega

/-- An object with the expected keys is as large as its members allow. -/
theorem within_of_exactKeys (h : exactKeys v expected message = .ok u) (hv : WellFormed v)
    (hw : ∀ key ∈ expected, ∃ w, v.get key = .ok w ∧ Within d c w) :
    Within (d + 1) (1 + expected.length * c) v := by
  obtain ⟨o, rfl, hlen, hm⟩ := forall_mem_of_exactKeys h hv hw
  exact within_object hlen hm

/-- Members of a well-formed value are well formed. -/
theorem wellFormed_get (hv : WellFormed v) (h : v.get key = .ok w) : WellFormed w := by
  obtain ⟨o, rfl, hf⟩ := get_eq_ok.mp h
  exact (wellFormed_object.mp hv).2 _ (mem_of_find hf)

theorem allStrings_get {P : Bytes → Prop} (hv : AllStrings P v) (h : v.get key = .ok w) :
    AllStrings P w := by
  obtain ⟨o, rfl, hf⟩ := get_eq_ok.mp h
  rw [AllStrings, allStringsMembers_iff] at hv
  exact (hv _ (mem_of_find hf)).2

/-! ## Documents out of a list of members -/

theorem get_ofList (hnd : (ByteMap.keys ms).Nodup) (h : ByteMap.find ms (ascii key) = some w) :
    (Value.object (ByteMap.ofList ms)).get key = .ok w := by
  rw [get_object, ByteMap.find_ofList hnd, h]

theorem exactKeys_ofList (hnd : (ByteMap.keys ms).Nodup)
    (hperm : (ByteMap.keys ms).Perm (expected.map ascii)) :
    exactKeys (.object (ByteMap.ofList ms)) expected message = .ok () := by
  refine exactKeys_eq_ok.mpr ⟨_, rfl, fun k => ?_⟩
  rw [← hperm.mem_iff, ByteMap.keys, ByteMap.keys]
  exact ((ByteMap.ofList_perm hnd).map Prod.fst).mem_iff

theorem ofList_concat (ms : List (Bytes × Value)) (m : Bytes × Value) :
    ByteMap.ofList (ms ++ [m]) = ByteMap.insert (ByteMap.ofList ms) m.1 m.2 := by
  rw [ByteMap.ofList, ByteMap.ofList, List.foldl_append]
  rfl

/-- What a document out of members owes to its members. -/
theorem wellFormed_ofList (hnd : (ByteMap.keys ms).Nodup) (h : ∀ m ∈ ms, WellFormed m.2) :
    WellFormed (.object (ByteMap.ofList ms)) :=
  wellFormed_object.mpr ⟨ByteMap.sorted_ofList ms,
    fun m hm => h m ((ByteMap.ofList_perm hnd).mem_iff.mp hm)⟩

theorem allStrings_ofList {P : Bytes → Prop} (hnd : (ByteMap.keys ms).Nodup)
    (h : ∀ m ∈ ms, P m.1 ∧ AllStrings P m.2) : AllStrings P (.object (ByteMap.ofList ms)) := by
  rw [AllStrings, allStringsMembers_iff]
  exact fun m hm => h m ((ByteMap.ofList_perm hnd).mem_iff.mp hm)

theorem count_ofList (hnd : (ByteMap.keys ms).Nodup) :
    count (.object (ByteMap.ofList ms)) = 1 + countMembers ms := by
  rw [count, countMembers_perm (ByteMap.ofList_perm hnd)]

theorem depth_ofList (hnd : (ByteMap.keys ms).Nodup) :
    depth (.object (ByteMap.ofList ms)) = depthMembers ms := by
  rw [depth, depthMembers_perm (ByteMap.ofList_perm hnd)]

/-- The text of an object by its members as they were listed. -/
theorem canonical_ofList_length_le {ms : List (Bytes × Value)} (hnd : (ByteMap.keys ms).Nodup) :
    (canonical (.object (ByteMap.ofList ms))).length ≤
      2 + (ms.map fun m => (escaped m.1).length + (canonical m.2).length + 2).sum := by
  have hle := canonicalMembers_length_le (ByteMap.ofList ms)
  rw [((ByteMap.ofList_perm hnd).map _).sum_eq] at hle
  rw [canonical, List.length_cons, List.length_append, List.length_singleton]
  omega

end Usk.Json
