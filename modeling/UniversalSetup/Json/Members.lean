import UniversalSetup.Json.Schema

/-!
# Objects with members that may be missing

A writer that leaves out the members without a value builds an object from a list of fields, of
which only those with a value are present. Looking up a key gives back the field.
-/

namespace Usk.Json

/-- The members of the fields that have a value. -/
def present (fields : List (Bytes × Option Value)) : List (Bytes × Value) :=
  fields.filterMap fun field => field.2.map fun value => (field.1, value)

theorem present_append (fields others : List (Bytes × Option Value)) :
    present (fields ++ others) = present fields ++ present others :=
  List.filterMap_append

theorem present_some (ms : List (Bytes × Value)) :
    present (ms.map fun m => (m.1, some m.2)) = ms := by
  unfold present
  rw [List.filterMap_map]
  exact List.filterMap_some

variable {fields : List (Bytes × Option Value)}

theorem mem_present {m : Bytes × Value} : m ∈ present fields ↔ (m.1, some m.2) ∈ fields := by
  obtain ⟨k, v⟩ := m
  unfold present
  rw [List.mem_filterMap]
  constructor
  · rintro ⟨⟨key, value⟩, hmem, hfield⟩
    cases value with
    | none => cases hfield
    | some w =>
      cases hfield
      exact hmem
  · intro hmem
    exact ⟨_, hmem, rfl⟩

theorem keys_present_sublist : (ByteMap.keys (present fields)).Sublist (fields.map Prod.fst) := by
  induction fields with
  | nil => exact List.Sublist.refl _
  | cons field rest ih =>
    obtain ⟨key, value⟩ := field
    cases value with
    | none => exact ih.trans (List.sublist_cons_self _ _)
    | some w => exact ih.cons_cons _

theorem nodup_present (hnd : (fields.map Prod.fst).Nodup) : (ByteMap.keys (present fields)).Nodup :=
  hnd.sublist keys_present_sublist

/-- A key of the list is looked up as its field says. -/
theorem find_present (hnd : (fields.map Prod.fst).Nodup) {key : Bytes} {value : Option Value}
    (h : (key, value) ∈ fields) : ByteMap.find (present fields) key = value := by
  cases value with
  | some w =>
    have hmem : (key, w) ∈ present fields := mem_present.mpr h
    exact find_of_mem (nodup_present hnd) hmem
  | none =>
    rw [ByteMap.find_eq_none]
    intro hkey
    obtain ⟨m, hm, rfl⟩ := List.mem_map.mp hkey
    have hsame := List.inj_on_of_nodup_map hnd h (mem_present.mp hm) rfl
    cases congrArg Prod.snd hsame

theorem find_document (hnd : (fields.map Prod.fst).Nodup) {key : Bytes} {value : Option Value}
    (h : (key, value) ∈ fields) :
    ByteMap.find (ByteMap.ofList (present fields)) key = value := by
  rw [ByteMap.find_ofList (nodup_present hnd), find_present hnd h]

theorem wellFormed_document (hnd : (fields.map Prod.fst).Nodup)
    (h : ∀ key w, (key, some w) ∈ fields → WellFormed w) :
    WellFormed (.object (ByteMap.ofList (present fields))) :=
  wellFormed_ofList (nodup_present hnd) fun m hm => h m.1 m.2 (mem_present.mp hm)

theorem mem_keys_document (hnd : (fields.map Prod.fst).Nodup) {key : Bytes} :
    key ∈ ByteMap.keys (ByteMap.ofList (present fields)) ↔ ∃ w, (key, some w) ∈ fields := by
  have hperm := (ByteMap.ofList_perm (nodup_present hnd)).map Prod.fst
  rw [ByteMap.keys, hperm.mem_iff, List.mem_map]
  constructor
  · rintro ⟨m, hm, rfl⟩
    exact ⟨m.2, mem_present.mp hm⟩
  · rintro ⟨w, hw⟩
    exact ⟨(key, w), mem_present.mpr hw, rfl⟩

/-- An object is the document of its fields if it has no other key and each field is looked up
there as it is. -/
theorem eq_document {o : Object} (hs : Sorted o) (hnd : (fields.map Prod.fst).Nodup)
    (hkeys : ∀ k ∈ ByteMap.keys o, k ∈ fields.map Prod.fst)
    (hfind : ∀ field ∈ fields, o.find field.1 = field.2) :
    o = ByteMap.ofList (present fields) := by
  refine eq_ofList_of_members hs (nodup_present hnd) (fun k hk => ?_) fun m hm => ?_
  · obtain ⟨field, hfield, rfl⟩ := List.mem_map.mp (hkeys k hk)
    have hf := hfind field hfield
    obtain ⟨m, hm, hkey⟩ := List.mem_map.mp hk
    rw [← hkey, find_of_mem (ByteMap.nodup_of_sorted hs) hm] at hf
    exact List.mem_map.mpr ⟨(field.1, m.2), mem_present.mpr (hf ▸ hfield), rfl⟩
  · exact hfind _ (mem_present.mp hm)

/-! ## Arrays -/

/-- Items that were written one by one are read one by one. -/
theorem mapM_map {α : Type} {read : Value → Result α} {write : α → Value} :
    ∀ {items : List α}, (∀ item ∈ items, read (write item) = .ok item) →
      (items.map write).mapM read = .ok items
  | [], _ => rfl
  | item :: rest, h => by
    have ih := mapM_map fun other hother => h other (List.mem_cons_of_mem item hother)
    rw [List.map_cons, List.mapM_cons, h item List.mem_cons_self, ih]
    rfl

theorem countItems_map {α : Type} {write : α → Value} {c : Nat} :
    ∀ {items : List α}, (∀ item, count (write item) = c) →
      countItems (items.map write) = c * items.length
  | [], _ => rfl
  | item :: rest, h => by
    rw [List.map_cons, countItems, h item, countItems_map h, List.length_cons, Nat.mul_succ,
      Nat.add_comm]

/-! ## Sizes -/

/-- The text of an object with members of bounded size. -/
theorem canonical_object_length_le {o : Object} {bound : Nat}
    (h : ∀ m ∈ o, (escaped m.1).length + (canonical m.2).length + 2 ≤ bound) :
    (canonical (.object o)).length ≤ 2 + o.length * bound := by
  have hsum : (o.map fun m => (escaped m.1).length + (canonical m.2).length + 2).sum ≤
      o.length * bound := by
    induction o with
    | nil => exact Nat.le_of_eq (Nat.zero_mul bound).symm
    | cons m rest ih =>
      have hm := h m List.mem_cons_self
      have hrest := ih fun m' hm' => h m' (List.mem_cons_of_mem m hm')
      rw [List.map_cons, List.sum_cons, List.length_cons, Nat.succ_mul]
      omega
  have hle := canonicalMembers_length_le o
  rw [canonical, List.length_cons, List.length_append, List.length_singleton]
  omega

theorem canonicalItems_length_le {bound : Nat} : ∀ {vs : List Value},
    (∀ v ∈ vs, (canonical v).length + 1 ≤ bound) → (canonicalItems vs).length ≤ vs.length * bound
  | [], _ => Nat.zero_le _
  | v :: rest, h => by
    have hv := h v List.mem_cons_self
    have ih := canonicalItems_length_le fun w hw => h w (List.mem_cons_of_mem v hw)
    rw [canonicalItems, List.length_append, List.length_cons, Nat.succ_mul]
    split
    · rw [List.length_nil]
      omega
    · rw [List.length_cons]
      omega

/-- The text of an array with items of bounded size. -/
theorem canonical_array_length_le {vs : List Value} {bound : Nat}
    (h : ∀ v ∈ vs, (canonical v).length + 1 ≤ bound) :
    (canonical (.array vs)).length ≤ 2 + vs.length * bound := by
  have hle := canonicalItems_length_le h
  rw [canonical, List.length_cons, List.length_append, List.length_singleton]
  omega

end Usk.Json
